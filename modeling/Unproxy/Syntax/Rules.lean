import Unproxy.Syntax.Quotation

/-!
# Unproxy.Syntax.Rules

The grammar calls itself: an expression may hold a function, whose body holds
statements, which hold expressions. `Rules` lists the readers that are called
that way. Every other reader takes a `Rules` and calls it for the parts one level
down, so it recurses on nothing itself; `Unproxy.Syntax.Program` ties the knot.
-/

namespace Unproxy.Syntax

/-- The readers that the grammar calls from further down. -/
structure Rules where
  /-- An expression without a comma. -/
  assignment : Parser Tree
  /-- Operands joined by operators that bind at least as tightly as given. -/
  binary : Nat → Parser Tree
  /-- An operand with the operators before it. -/
  unary : Parser Tree
  /-- An expression that begins with `new`. -/
  construct : Parser Tree
  statement : Parser Tree

namespace Rules

/-- The rules that read nothing. -/
def none : Rules where
  assignment := Parser.reject
  binary _ := Parser.reject
  unary := Parser.reject
  construct := Parser.reject
  statement := Parser.reject

end Rules

/-- Words that are no names. -/
def reservedWords : List Text :=
  ["break", "case", "catch", "class", "const", "continue", "debugger", "default", "delete", "do",
    "else", "export", "extends", "false", "finally", "for", "function", "if", "import", "in",
    "instanceof", "new", "null", "return", "super", "switch", "this", "throw", "true", "try",
    "typeof", "var", "void", "while", "with", "yield"].map String.toText

namespace Token

/-- Whether a token is the given punctuator. -/
def isSymbol (t : Token) (spelling : String) : Bool := t == .symbol spelling.toText

/-- Whether a token is the given word. -/
def isWord (t : Token) (spelling : String) : Bool := t == .name spelling.toText

/-- Whether a token is one of the given punctuators. -/
def isSymbolOf (t : Token) (spellings : List String) : Bool := spellings.any t.isSymbol

/-- Whether a token is one of the given words. -/
def isWordOf (t : Token) (spellings : List String) : Bool := spellings.any t.isWord

/-- Whether a token is a name that is not reserved. -/
def isIdentifier : Token → Bool
  | .name spelling => !reservedWords.contains spelling
  | _ => false

/-- Whether an operand can begin with a token. -/
def startsOperand (t : Token) : Bool :=
  match t with
  | .name _ => !t.isWordOf ["in", "instanceof", "of"]
  | .privateName _ | .number _ | .quote _ | .backtick => true
  | .symbol _ => t.isSymbolOf ["(", "[", "\x7b", "+", "-", "!", "~", "++", "--", "/", "/="]
  | .finish | .unknown => false

end Token

namespace Parser

/-- A name; `undefined` has a kind of its own. -/
def identifier : Parser Tree := do
  match ← next with
  | .name spelling =>
    require !(reservedWords.contains spelling)
    take (if spelling = "undefined".toText then .undefined else .identifier) spelling
  | _ => reject

variable (r : Rules)

/-- One expression, or several with commas between them. -/
def expressions : Parser Tree := do
  match ← commaSeparated r.assignment (← budget) with
  | [single] => return single
  | parts => return Tree.node .sequence parts

/-- An item of a list: an expression, or three points and an expression. -/
def spreadable : Parser Tree := do
  if ← atSymbol "..." then
    let points ← symbol "..."
    let inner ← r.assignment
    return Tree.node .spread [points, inner]
  else r.assignment

/-- Statements in braces. -/
def block : Parser Tree := do
  let opening ← symbol "\x7b"
  let statements ← many (do return !(← atSymbol "\x7d")) r.statement (← budget)
  let closing ← symbol "\x7d"
  return Tree.node .statementBlock (opening :: statements ++ [closing])

/-- Expressions in parentheses. -/
def parenthesized : Parser Tree := do
  let opening ← symbol "("
  let inner ← expressions r
  let closing ← symbol ")"
  return Tree.node .parenthesized [opening, inner, closing]

end Parser

end Unproxy.Syntax
