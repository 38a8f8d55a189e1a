/-!
# Unproxy.Syntax.Kind

The kinds of node a JavaScript syntax tree has, and the roles a node may play
in its parent. A tree is concrete: punctuation and keywords are nodes of kind
`Kind.token`, and comments are nodes of kind `Kind.comment`.
-/

namespace Unproxy.Syntax

/-- What a node of the tree is. -/
inductive Kind where
  /-- Punctuation, operators, keywords and quotes. -/
  | token
  | comment
  | hashBang
  | program
  -- Statements
  | emptyStatement
  | expressionStatement
  | statementBlock
  | variableDeclaration
  | lexicalDeclaration
  | variableDeclarator
  | functionDeclaration
  | generatorDeclaration
  | classDeclaration
  | ifStatement
  | elseClause
  | switchStatement
  | switchBody
  | switchCase
  | switchDefault
  | forStatement
  /-- Both `for … in` and `for … of`. -/
  | forIn
  | whileStatement
  | doStatement
  | tryStatement
  | catchClause
  | finallyClause
  | withStatement
  | breakStatement
  | continueStatement
  | debuggerStatement
  | returnStatement
  | throwStatement
  | labeledStatement
  | label
  -- Modules
  | importStatement
  | importClause
  | namespaceImport
  | namedImports
  | importSpecifier
  | importAttribute
  | exportStatement
  | exportClause
  | exportSpecifier
  | namespaceExport
  -- Expressions
  | identifier
  | propertyIdentifier
  | privateIdentifier
  | shorthandProperty
  | undefined
  | this
  | super
  | null
  | true
  | false
  | number
  | string
  | stringFragment
  | escape
  | templateString
  | templateSubstitution
  | regex
  | regexPattern
  | regexFlags
  | array
  | object
  | pair
  | spread
  | method
  | computedName
  | parenthesized
  | sequence
  /-- A read or write of the form `x.y`. -/
  | member
  /-- A read or write of the form `x[y]`. -/
  | subscript
  | optionalChain
  | call
  | arguments
  | new
  | importKeyword
  | metaProperty
  | unary
  | update
  | await
  | yield
  | binary
  | ternary
  | assignment
  /-- `x += y` and its like. -/
  | compoundAssignment
  | function
  | generator
  | arrow
  | parameters
  | classExpression
  | classHeritage
  | classBody
  | field
  | staticBlock
  -- Patterns
  | arrayPattern
  | objectPattern
  | pairPattern
  | restPattern
  | assignmentPattern
  | shorthandPattern
  /-- `x = y` inside braces: a pattern with a default, or no program at all. -/
  | shorthandDefault
  deriving DecidableEq, Repr

/-- The part a node plays in its parent. -/
inductive Role where
  | object
  | property
  | index
  | optionalChain
  | left
  | right
  | operator
  | argument
  | body
  | name
  | key
  | value
  deriving DecidableEq, Repr

end Unproxy.Syntax
