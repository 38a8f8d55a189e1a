import Unproxy.Syntax.Module

/-!
# Unproxy.Syntax.Statement

Statements and declarations.
-/

namespace Unproxy.Syntax.Parser

variable (r : Rules)

/-! ### Declarations -/

/-- What a declaration binds: a name or a pattern. -/
def binding : Parser Tree := do
  if ← atSymbol "\x7b" then pattern (← object r)
  else if ← atSymbol "[" then pattern (← array r)
  else identifier

/-- A name or pattern of a declaration with its value. -/
def declarator : Parser Tree := do
  let target ← binding r
  if ← atSymbol "=" then
    let equals ← symbol "="
    let value ← r.assignment
    return Tree.node .variableDeclarator [target.as .name, equals, value.as .value]
  else return Tree.node .variableDeclarator [target.as .name]

/-- The word a declaration begins with. -/
def declarationWord : Parser Tree := do
  if ← atWord "var" then keyword "var"
  else if ← atWord "const" then keyword "const"
  else keyword "let"

/-- The kind of declaration a word begins. -/
def declarationKind (word : Tree) : Kind :=
  if word.text = "var".toText then .variableDeclaration else .lexicalDeclaration

/-- A declaration with its end. -/
def declaration : Parser Tree := do
  let word ← declarationWord
  let declarators ← commaSeparated (declarator r) (← budget)
  let ending ← terminator false
  return Tree.node (declarationKind word) (word :: declarators ++ ending)

/-- Whether `let` begins a declaration, judged by what follows it. -/
def startsLet (behind : Scan) : Bool := behind.next.isIdentifier || behind.next.isSymbolOf ["[", "\x7b"]

/-- Whether a word that begins a declaration comes next. -/
def atDeclaration : Parser Bool := do
  let token ← next
  if token.isWordOf ["var", "const"] then return true
  else if token.isWord "let" then return startsLet (← second)
  else return false

/-! ### Branches and loops -/

/-- An expression as a statement. -/
def expressionStatement : Parser Tree := do
  let expression ← expressions r
  let ending ← terminator false
  return Tree.node .expressionStatement (expression :: ending)

/-- `if` with its branches. -/
def ifStatement : Parser Tree := do
  let word ← keyword "if"
  let condition ← parenthesized r
  let consequence ← r.statement
  if ← atWord "else" then
    let other ← keyword "else"
    let alternative ← r.statement
    return Tree.node .ifStatement
      [word, condition, consequence, Tree.node .elseClause [other, alternative]]
  else return Tree.node .ifStatement [word, condition, consequence]

/-- Whether a part of a `switch` ends here. -/
def atCaseEnd : Parser Bool := do
  let token ← next
  return token.isWordOf ["case", "default"] || token.isSymbol "\x7d"

/-- The statements of a part of a `switch`. -/
def caseStatements : Parser (List Tree) := do
  many (do return !(← atCaseEnd)) r.statement (← budget)

/-- A part of a `switch`. -/
def switchPart : Parser Tree := do
  if ← atWord "default" then
    let word ← keyword "default"
    let colon ← symbol ":"
    return Tree.node .switchDefault (word :: colon :: (← caseStatements r))
  else
    let word ← keyword "case"
    let value ← expressions r
    let colon ← symbol ":"
    return Tree.node .switchCase (word :: value :: colon :: (← caseStatements r))

/-- `switch` with its parts. -/
def switchStatement : Parser Tree := do
  let word ← keyword "switch"
  let value ← parenthesized r
  let opening ← symbol "\x7b"
  let parts ← many (do return !(← atSymbol "\x7d")) (switchPart r) (← budget)
  let closing ← symbol "\x7d"
  return Tree.node .switchStatement
    [word, value, (Tree.node .switchBody (opening :: parts ++ [closing])).as .body]

/-- What a `for … in` or `for … of` assigns to, with the word before it. -/
def forTarget : Parser (List Tree) := do
  if ← atDeclaration then
    let word ← declarationWord
    let target ← binding r
    return [word, target.as .left]
  else
    let left ← leftHandSide r
    match left.toTarget with
    | some target => return [target.as .left]
    | none => reject

/-- The head of `for … in` or `for … of`, parentheses included. -/
def forInHead : Parser (List Tree) := do
  let opening ← symbol "("
  let target ← forTarget r
  require ((← next).isWordOf ["in", "of"])
  let operator ← (do if ← atWord "in" then keyword "in" else keyword "of")
  let right ← expressions r
  let closing ← symbol ")"
  return opening :: target ++ [operator.as .operator, right.as .right, closing]

/-- An expression and a semicolon, or a semicolon. -/
def forPart : Parser (List Tree) := do
  if ← atSymbol ";" then return [Tree.node .emptyStatement [← symbol ";"]]
  else
    let expression ← expressions r
    let ending ← symbol ";"
    return [expression, ending]

/-- The first part of the head of a `for`. -/
def forStart : Parser (List Tree) := do
  if ← atDeclaration then
    let word ← declarationWord
    let declarators ← commaSeparated (declarator r) (← budget)
    let ending ← symbol ";"
    return [Tree.node (declarationKind word) (word :: declarators ++ [ending])]
  else forPart r

/-- The head of a `for` with three parts, parentheses included. -/
def forHead : Parser (List Tree) := do
  let opening ← symbol "("
  let start ← forStart r
  let condition ← forPart r
  let step ← (do if ← atSymbol ")" then return [] else return [← expressions r])
  let closing ← symbol ")"
  return opening :: start ++ condition ++ step ++ [closing]

/-- A loop that begins with `for`. -/
def forStatement : Parser Tree := do
  let word ← keyword "for"
  let await ← keyword? "await"
  let (kind, head) ←
    (do return (Kind.forIn, ← forInHead r)) <|> (do return (Kind.forStatement, ← forHead r))
  let body ← r.statement
  return Tree.node kind (word :: await ++ head ++ [body.as .body])

/-- `while`, and `with`, which has the same shape. -/
def headedStatement (kind : Kind) (spelling : String) : Parser Tree := do
  let word ← keyword spelling
  let head ← parenthesized r
  let body ← r.statement
  return Tree.node kind [word, head, body.as .body]

/-- `do … while`; the semicolon behind it may be missing. -/
def doStatement : Parser Tree := do
  let word ← keyword "do"
  let body ← r.statement
  let again ← keyword "while"
  let condition ← parenthesized r
  let ending ← symbol? ";"
  return Tree.node .doStatement (word :: body.as .body :: again :: condition :: ending)

/-! ### Jumps -/

/-- `return` with or without a value. -/
def returnStatement : Parser Tree := do
  let word ← keyword "return"
  if ← atEnd true then
    let ending ← terminator true
    return Tree.node .returnStatement (word :: ending)
  else
    let value ← expressions r
    let ending ← terminator false
    return Tree.node .returnStatement (word :: value :: ending)

/-- `throw` with its value. -/
def throwStatement : Parser Tree := do
  let word ← keyword "throw"
  let value ← expressions r
  let ending ← terminator false
  return Tree.node .throwStatement (word :: value :: ending)

/-- `break`, `continue` and `debugger`; the first two may name a label. -/
def jumpStatement (kind : Kind) (spelling : String) : Parser Tree := do
  let word ← keyword spelling
  if ← atEnd true then
    let ending ← terminator true
    return Tree.node kind (word :: ending)
  else
    require (kind != .debuggerStatement)
    let label ← identifier
    let ending ← terminator true
    return Tree.node kind (word :: label.ofKind .label :: ending)

/-- The handler of a `try`. -/
def catchClause : Parser Tree := do
  let word ← keyword "catch"
  let parameter ← (do
    if ← atSymbol "(" then
      let opening ← symbol "("
      let target ← binding r
      let closing ← symbol ")"
      return [opening, target, closing]
    else return [])
  let body ← block r
  return Tree.node .catchClause (word :: parameter ++ [body.as .body])

/-- `try` with its clauses. -/
def tryStatement : Parser Tree := do
  let word ← keyword "try"
  let body ← block r
  let handler ← (do if ← atWord "catch" then return [← catchClause r] else return [])
  let finalizer ← (do
    if ← atWord "finally" then
      let finally' ← keyword "finally"
      let inner ← block r
      return [Tree.node .finallyClause [finally', inner.as .body]]
    else return [])
  return Tree.node .tryStatement (word :: body.as .body :: handler ++ finalizer)

/-- A statement behind its label. -/
def labeledStatement : Parser Tree := do
  let label ← identifier
  let colon ← symbol ":"
  let body ← r.statement
  return Tree.node .labeledStatement [label.ofKind .label, colon, body.as .body]

/-! ### All statements -/

/-- Whether a function here is a declaration: the word `function`, an asterisk or
none, and a name. -/
def namesFunction (s : Scan) : Bool :=
  s.next.isIdentifier ||
    (s.next.isSymbol "*" && (s.advance "*".toText).next.isIdentifier)

/-- A statement that begins with a word. -/
def wordStatement : Parser Tree := do
  let token ← next
  let behind ← second
  if ← atDeclaration then declaration r
  else if token.isWord "function" && namesFunction behind then functionFrom r [] true
  else if token.isWord "async" && behind.next.isWord "function" && behind.gap == .none then
    let word ← keyword "async"
    if namesFunction (← second) then functionFrom r [word] true
    else reject
  else if token.isWord "class" && behind.next.isIdentifier then classFrom r r.unary true
  else if token.isWord "if" then ifStatement r
  else if token.isWord "for" then forStatement r
  else if token.isWord "while" then headedStatement r .whileStatement "while"
  else if token.isWord "with" then headedStatement r .withStatement "with"
  else if token.isWord "do" then doStatement r
  else if token.isWord "switch" then switchStatement r
  else if token.isWord "return" then returnStatement r
  else if token.isWord "throw" then throwStatement r
  else if token.isWord "break" then jumpStatement .breakStatement "break"
  else if token.isWord "continue" then jumpStatement .continueStatement "continue"
  else if token.isWord "debugger" then jumpStatement .debuggerStatement "debugger"
  else if token.isWord "try" then tryStatement r
  else if token.isWord "import" && !behind.next.isSymbolOf ["(", "."] then importStatement r
  else if token.isWord "export" then exportStatement r
  else if token.isIdentifier && behind.next.isSymbol ":" then labeledStatement r
  else expressionStatement r

/-- A statement. -/
def statement : Parser Tree := do
  match ← next with
  | .name _ => wordStatement r
  | token =>
    if token.isSymbol "\x7b" then block r
    else if token.isSymbol ";" then return Tree.node .emptyStatement [← symbol ";"]
    else expressionStatement r

end Unproxy.Syntax.Parser
