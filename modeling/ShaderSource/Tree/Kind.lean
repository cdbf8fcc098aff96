/-!
# Kinds of nodes

A tree has a node for each production of the grammar that was used. The kind of a node names the
production. The layout of a kind lists what such a node is made of, in source order, so that
writing out a node, walking over it and changing it follow one and the same list.
-/

namespace ShaderSource

/-- The production that a node stands for. -/
inductive Kind where
  /-- A whole source: the trivia before its first token, and what it declares. -/
  | program
  /-- A preprocessor line, kept as it is. -/
  | preprocessor
  /-- A built-in type name or a qualifier. -/
  | keyword
  /-- A name. -/
  | identifier
  /-- A name in the place of a type. -/
  | typeName
  /-- A number or a truth value, suffix included. -/
  | literal
  /-- The form `(e)`. -/
  | group
  /-- The form `a + b`. -/
  | binary
  /-- The form `-a`. -/
  | unary
  /-- An expression and one suffix after it: an index, a selection or an operator. -/
  | postfixExpr
  /-- The form `.name`. -/
  | fieldSelection
  /-- The form `[e]`, an array dimension or an index. -/
  | arraySpecifier
  /-- The form `++` or `--` after an expression. -/
  | postfixOperator
  /-- A call or a constructor: the callee, then the arguments in parentheses. -/
  | functionCall
  /-- The form `c ? a : b`. -/
  | ternary
  /-- The form `a = b`. -/
  | assignment
  /-- The form `a, b`. -/
  | sequence
  /-- Initializers in braces; a comma may follow the last. -/
  | initializerList
  /-- A type and its array dimensions. -/
  | typeSpecifier
  /-- Qualifiers and the type that they qualify. -/
  | fullySpecifiedType
  /-- The form `layout(a, b = 1)`. -/
  | layoutQualifier
  /-- The form `name` or `name = value` in a layout qualifier. -/
  | layoutQualifierId
  /-- A structure with its members in braces. -/
  | structSpecifier
  /-- Members of one type in a structure or an interface block. -/
  | structDeclaration
  /-- A name and its array dimensions. -/
  | quantifiedIdentifier
  /-- A declaration and its semicolon. -/
  | declarationStatement
  /-- A type and the declarators that share it. -/
  | declaratorList
  /-- The form `name[2] = value`. -/
  | declarator
  /-- The form `precision highp float`. -/
  | precision
  /-- Qualifiers, the name of the block, its members in braces, and the instance if it is named. -/
  | interfaceBlock
  /-- Qualifiers for names declared elsewhere, or on their own. -/
  | qualifierDeclarator
  /-- A header, the parameters, and the closing parenthesis. -/
  | functionPrototype
  /-- The result type, the name, and the opening parenthesis. -/
  | functionHeader
  /-- Qualifiers, type, name and array dimensions of a parameter. -/
  | parameter
  /-- A prototype and its body. -/
  | functionDefinition
  /-- Statements in braces. -/
  | compoundStatement
  /-- The form `e;` or `;`. -/
  | expressionStatement
  /-- The form `if (c) s` with or without an `else`. -/
  | ifStatement
  /-- The form `switch (e)` and its cases in braces. -/
  | switchStatement
  /-- The form `case e:` or `default:` with the statements after it. -/
  | switchCase
  /-- The form `while (c) s`. -/
  | whileStatement
  /-- The form `do s while (e);`. -/
  | doStatement
  /-- The form `for (init; c; e) s`. -/
  | forStatement
  /-- A declaration in the place of a condition. -/
  | conditionExpression
  /-- The form `return e;`. -/
  | returnStatement
  /-- The form `break;`, `continue;` or `discard;`. -/
  | jumpStatement
  deriving DecidableEq, Repr, Inhabited

/-- The form of one part of a node. -/
inductive PartShape where
  /-- Text that belongs to no token. -/
  | text
  /-- A token. -/
  | token
  /-- A token that may be absent. -/
  | optToken
  /-- A node. -/
  | child
  /-- A node that may be absent. -/
  | optChild
  /-- Any number of nodes. -/
  | list
  /-- Any number of nodes with tokens between them. -/
  | separated
  /-- A token and a node that are written together or not at all. -/
  | branch
  deriving DecidableEq, Repr, Inhabited

namespace Kind

/-- All kinds. -/
def all : List Kind :=
  [.program, .preprocessor, .keyword, .identifier, .typeName, .literal, .group, .binary, .unary,
    .postfixExpr, .fieldSelection, .arraySpecifier, .postfixOperator, .functionCall, .ternary,
    .assignment, .sequence, .initializerList, .typeSpecifier, .fullySpecifiedType,
    .layoutQualifier, .layoutQualifierId, .structSpecifier, .structDeclaration,
    .quantifiedIdentifier, .declarationStatement, .declaratorList, .declarator, .precision,
    .interfaceBlock, .qualifierDeclarator, .functionPrototype, .functionHeader, .parameter,
    .functionDefinition, .compoundStatement, .expressionStatement, .ifStatement, .switchStatement,
    .switchCase, .whileStatement, .doStatement, .forStatement, .conditionExpression,
    .returnStatement, .jumpStatement]

/-- The name of a kind in messages. -/
def name : Kind → String
  | .program => "Program"
  | .preprocessor => "Preprocessor"
  | .keyword => "Keyword"
  | .identifier => "Identifier"
  | .typeName => "TypeName"
  | .literal => "Literal"
  | .group => "Group"
  | .binary => "Binary"
  | .unary => "Unary"
  | .postfixExpr => "Postfix"
  | .fieldSelection => "FieldSelection"
  | .arraySpecifier => "ArraySpecifier"
  | .postfixOperator => "PostfixOperator"
  | .functionCall => "FunctionCall"
  | .ternary => "Ternary"
  | .assignment => "Assignment"
  | .sequence => "Sequence"
  | .initializerList => "InitializerList"
  | .typeSpecifier => "TypeSpecifier"
  | .fullySpecifiedType => "FullySpecifiedType"
  | .layoutQualifier => "LayoutQualifier"
  | .layoutQualifierId => "LayoutQualifierId"
  | .structSpecifier => "Struct"
  | .structDeclaration => "StructDeclaration"
  | .quantifiedIdentifier => "QuantifiedIdentifier"
  | .declarationStatement => "DeclarationStatement"
  | .declaratorList => "DeclaratorList"
  | .declarator => "Declaration"
  | .precision => "Precision"
  | .interfaceBlock => "InterfaceDeclarator"
  | .qualifierDeclarator => "QualifierDeclarator"
  | .functionPrototype => "FunctionPrototype"
  | .functionHeader => "FunctionHeader"
  | .parameter => "ParameterDeclaration"
  | .functionDefinition => "Function"
  | .compoundStatement => "CompoundStatement"
  | .expressionStatement => "ExpressionStatement"
  | .ifStatement => "IfStatement"
  | .switchStatement => "SwitchStatement"
  | .switchCase => "SwitchCase"
  | .whileStatement => "WhileStatement"
  | .doStatement => "DoStatement"
  | .forStatement => "ForStatement"
  | .conditionExpression => "ConditionExpression"
  | .returnStatement => "ReturnStatement"
  | .jumpStatement => "JumpStatement"

/-- The kind with the given name. -/
def ofName? (s : String) : Option Kind :=
  all.find? fun k => k.name == s

/-- The parts of a node of this kind, in source order. -/
def layout : Kind → List PartShape
  | .program => [.text, .list]
  | .preprocessor => [.token]
  | .keyword => [.token]
  | .identifier => [.token]
  | .typeName => [.token]
  | .literal => [.token]
  | .group => [.token, .child, .token]
  | .binary => [.child, .token, .child]
  | .unary => [.token, .child]
  | .postfixExpr => [.child, .child]
  | .fieldSelection => [.token, .token]
  | .arraySpecifier => [.token, .optChild, .token]
  | .postfixOperator => [.token]
  | .functionCall => [.child, .token, .separated, .token]
  | .ternary => [.child, .token, .child, .token, .child]
  | .assignment => [.child, .token, .child]
  | .sequence => [.separated]
  | .initializerList => [.token, .separated, .token]
  | .typeSpecifier => [.child, .list]
  | .fullySpecifiedType => [.list, .child]
  | .layoutQualifier => [.token, .token, .separated, .token]
  | .layoutQualifierId => [.token, .optToken, .optChild]
  | .structSpecifier => [.token, .optChild, .token, .list, .token]
  | .structDeclaration => [.child, .separated, .token]
  | .quantifiedIdentifier => [.child, .list]
  | .declarationStatement => [.child, .token]
  | .declaratorList => [.child, .separated]
  | .declarator => [.child, .list, .optToken, .optChild]
  | .precision => [.token, .child, .child]
  | .interfaceBlock => [.list, .token, .token, .list, .token, .optChild]
  | .qualifierDeclarator => [.list, .separated]
  | .functionPrototype => [.child, .separated, .token]
  | .functionHeader => [.child, .child, .token]
  | .parameter => [.list, .child, .optChild, .list]
  | .functionDefinition => [.child, .child]
  | .compoundStatement => [.token, .list, .token]
  | .expressionStatement => [.optChild, .token]
  | .ifStatement => [.token, .token, .child, .token, .child, .branch]
  | .switchStatement => [.token, .token, .child, .token, .token, .list, .token]
  | .switchCase => [.token, .optChild, .token, .list]
  | .whileStatement => [.token, .token, .child, .token, .child]
  | .doStatement => [.token, .child, .token, .token, .child, .token, .token]
  | .forStatement => [.token, .token, .child, .optChild, .token, .optChild, .token, .child]
  | .conditionExpression => [.child, .child, .token, .child]
  | .returnStatement => [.token, .optChild, .token]
  | .jumpStatement => [.token, .token]

end Kind

end ShaderSource
