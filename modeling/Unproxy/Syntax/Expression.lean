import Unproxy.Syntax.Definition

/-!
# Unproxy.Syntax.Expression

Expressions, from the innermost outwards: primary ones, properties and calls,
operators before and behind an operand, operators between operands, the
conditional operator, assignments.
-/

namespace Unproxy.Syntax.Parser

variable (r : Rules)

/-! ### Templates -/

/-- The longest stretch of a template that holds no escape and no expression. -/
def templateFragment : Text → Text
  | [] => []
  | c :: rest =>
    if c = '`' || c = '\\' then []
    else if c = '$' && rest.head? == some (CodePoint.ofChar '\x7b') then []
    else c :: templateFragment rest

/-- The inside of a template with its closing backtick. -/
def templateRest : Nat → Parser (List Tree)
  | 0 => reject
  | n + 1 => do
    let s ← get
    if s.rest.head? = some (CodePoint.ofChar '`') then return [← take .token "`".toText]
    else if "$\x7b".toText.isPrefixOf s.rest then
      let opening ← take .token "$\x7b".toText
      let inner ← expressions r
      require (← atSymbol "\x7d")
      let closing ← takeInside .token "\x7d".toText
      let others ← templateRest n
      return Tree.node .templateSubstitution [opening, inner, closing] :: others
    else
      match Lexeme.escape? s.rest with
      | some escape =>
        let first ← takeInside .escape escape
        let others ← templateRest n
        return first :: others
      | none =>
        let fragment := templateFragment s.rest
        require !fragment.isEmpty
        let first ← takeInside .stringFragment fragment
        let others ← templateRest n
        return first :: others

/-- A template. -/
def template : Parser Tree := do
  require ((← next) == .backtick)
  let opening ← takeInside .token "`".toText
  let inside ← templateRest r (← budget)
  return Tree.node .templateString (opening :: inside)

/-! ### Primary expressions -/

/-- Something in parentheses, or the parameters of an arrow function and the
function: the arrow behind the parentheses decides. -/
def parenthesizedOrArrow (modifiers : List Tree) : Parser Tree := do
  let opening ← symbol "("
  let items ← commaList ")" false (spreadable r) (← budget)
  let closing ← symbol ")"
  if ← atSymbol "=>" then
    let parameters := Tree.node .parameters (opening :: (← patterns items) ++ [closing])
    arrowFrom r (modifiers ++ [parameters])
  else
    require modifiers.isEmpty
    match items with
    | [] => reject
    | [single] =>
      require (single.kind != .spread)
      return Tree.node .parenthesized [opening, single, closing]
    | items =>
      require (items.all fun item => item.kind != .spread)
      require ((items.getLast?.map Tree.isNamed).getD false)
      return Tree.node .parenthesized [opening, Tree.node .sequence items, closing]

/-- A name, or an arrow function whose parameter it is. -/
def identifierOrArrow (modifiers : List Tree) : Parser Tree := do
  let name ← identifier
  if ← atSymbol "=>" then arrowFrom r (modifiers ++ [name])
  else
    require modifiers.isEmpty
    return name

/-- What may begin with `async`: a function, an arrow function, or the name
itself. -/
def asyncOrName : Parser Tree := do
  let behind ← second
  if behind.next.isWord "function" && behind.gap == .none then
    let word ← keyword "async"
    functionFrom r [word] false
  else if behind.next.isIdentifier && behind.gap == .none then
    (do
      let word ← keyword "async"
      identifierOrArrow r [word]) <|> identifierOrArrow r []
  else if behind.next.isSymbol "(" then
    (do
      let word ← keyword "async"
      parenthesizedOrArrow r [word]) <|> identifierOrArrow r []
  else identifierOrArrow r []

/-- A call of `import`, or `import.meta`. -/
def importExpression : Parser Tree := do
  let behind ← second
  if behind.next.isSymbol "." then
    let word ← keyword "import"
    let point ← symbol "."
    let property ← keyword "meta"
    return Tree.node .metaProperty [word, point, property]
  else
    require (behind.next.isSymbol "(")
    take .importKeyword "import".toText

/-- The name behind a point. -/
def propertyWord : Parser Tree := do
  match ← next with
  | .name spelling => take .propertyIdentifier spelling
  | .privateName spelling => take .privateIdentifier spelling
  | _ => reject

/-- An index in brackets. -/
def bracketed : Parser (List Tree) := do
  let opening ← symbol "["
  let index ← expressions r
  let closing ← symbol "]"
  return [opening, index.as .index, closing]

/-- Arguments in parentheses. -/
def callArguments : Parser Tree := do
  let opening ← symbol "("
  let items ← commaList ")" true (spreadable r) (← budget)
  let closing ← symbol ")"
  return Tree.node .arguments (opening :: items ++ [closing])

/-- Reads members, calls and templates behind an expression, for as long as there
are any. Behind `new` a call ends the row. -/
def memberTail (calls : Bool) : Nat → Tree → Parser Tree
  | 0, _ => reject
  | n + 1, t => do
    match ← next with
    | .backtick =>
      let quasi ← template r
      memberTail calls n (Tree.node .call [t, quasi])
    | .symbol spelling =>
      if spelling = ".".toText then
        let point ← symbol "."
        let property ← propertyWord
        memberTail calls n (Tree.node .member [t.as .object, point, property.as .property])
      else if spelling = "[".toText then
        let parts ← bracketed r
        memberTail calls n (Tree.node .subscript (t.as .object :: parts))
      else if spelling = "?.".toText then
        require calls
        let chain := (← take .optionalChain "?.".toText).as .optionalChain
        if ← atSymbol "(" then
          let arguments ← callArguments r
          memberTail calls n (Tree.node .call [t, chain, arguments])
        else if ← atSymbol "[" then
          let parts ← bracketed r
          memberTail calls n (Tree.node .subscript (t.as .object :: chain :: parts))
        else
          let property ← propertyWord
          memberTail calls n (Tree.node .member [t.as .object, chain, property.as .property])
      else if calls && spelling = "(".toText then
        let arguments ← callArguments r
        memberTail calls n (Tree.node .call [t, arguments])
      else return t
    | _ => return t

/-- Reads a word as a leaf of its own kind. -/
def wordAs (kind : Kind) (spelling : String) : Parser Tree := do
  require (← atWord spelling)
  take kind spelling.toText

/-- A primary expression that begins with a word. -/
def wordExpression (leftHandSide : Parser Tree) : Parser Tree := do
  let word ← next
  if word.isWord "function" then functionFrom r [] false
  else if word.isWord "class" then classFrom r leftHandSide false
  else if word.isWord "async" then asyncOrName r
  else if word.isWord "import" then importExpression
  else if word.isWord "this" then wordAs .this "this"
  else if word.isWord "super" then wordAs .super "super"
  else if word.isWord "null" then wordAs .null "null"
  else if word.isWord "true" then wordAs .true "true"
  else if word.isWord "false" then wordAs .false "false"
  else identifierOrArrow r []

/-- A primary expression. `leftHandSide` reads what stands behind `extends`. -/
def primary (leftHandSide : Parser Tree) : Parser Tree := do
  match ← next with
  | .number spelling => take .number spelling
  | .quote _ => string
  | .backtick => template r
  | .name _ => wordExpression r leftHandSide
  | .symbol spelling =>
    if spelling = "(".toText then parenthesizedOrArrow r []
    else if spelling = "[".toText then array r
    else if spelling = "\x7b".toText then object r
    else regex
  | .privateName _ | .finish | .unknown => reject

/-- An expression that begins with `new`. -/
def construct : Parser Tree := do
  let word ← keyword "new"
  if ← atSymbol "." then
    let point ← symbol "."
    let target ← keyword "target"
    return Tree.node .metaProperty [word, point, target]
  else
    let constructor ← (do
      if ← atWord "new" then r.construct
      else memberTail r false (← budget) (← primary r r.unary))
    if ← atSymbol "(" then
      let arguments ← callArguments r
      return Tree.node .new [word, constructor, arguments]
    else return Tree.node .new [word, constructor]

/-- An expression with its properties and calls. A class in it reads its ancestor
one level down. -/
def leftHandSide : Parser Tree := do
  let first ← (do if ← atWord "new" then construct r else primary r r.unary)
  memberTail r true (← budget) first

/-! ### Operators -/

/-- An operand with the operators before and behind it. -/
def unary : Parser Tree := do
  let token ← next
  if token.isSymbolOf ["!", "~", "-", "+"] || token.isWordOf ["typeof", "void", "delete"] then
    match token with
    | .symbol spelling | .name spelling =>
      let operator ← take .token spelling
      let operand ← r.unary
      return Tree.node .unary [operator.as .operator, operand.as .argument]
    | _ => reject
  else if token.isSymbolOf ["++", "--"] then
    match token with
    | .symbol spelling =>
      let operator ← take .token spelling
      let operand ← r.unary
      return Tree.node .update [operator.as .operator, operand.as .argument]
    | _ => reject
  else if token.isWord "await" && (← second).next.startsOperand then
    let word ← keyword "await"
    let operand ← r.unary
    return Tree.node .await [word, operand]
  else
    let operand ← leftHandSide r
    if (← next).isSymbolOf ["++", "--"] && (← gap) == .none then
      match ← next with
      | .symbol spelling =>
        let operator ← take .token spelling
        return Tree.node .update [operand.as .argument, operator.as .operator]
      | _ => reject
    else return operand

/-- How tightly an operator between two operands binds. -/
def precedences : List (Nat × List String) :=
  [(1, ["??"]), (2, ["||"]), (3, ["&&"]), (4, ["|"]), (5, ["^"]), (6, ["&"]),
    (7, ["==", "!=", "===", "!=="]), (8, ["<", ">", "<=", ">="]), (9, ["<<", ">>", ">>>"]),
    (10, ["+", "-"]), (11, ["*", "/", "%"]), (12, ["**"])]

/-- The spelling and the tightness of an operator between two operands. -/
def binaryOperator? (t : Token) : Option (Text × Nat) :=
  match t with
  | .symbol spelling =>
    (precedences.find? fun (_, spellings) => t.isSymbolOf spellings).map fun (p, _) => (spelling, p)
  | .name spelling => if t.isWordOf ["in", "instanceof"] then some (spelling, 8) else none
  | _ => none

/-- Joins further operands to one, as long as the operators bind tightly enough.
Exponentiation groups to the right and the others to the left. -/
def binaryTail (tightness : Nat) : Nat → Tree → Parser Tree
  | 0, _ => reject
  | n + 1, left => do
    match binaryOperator? (← next) with
    | some (spelling, p) =>
      if tightness ≤ p then
        let operator ← take .token spelling
        let right ← r.binary (if spelling = "**".toText then p else p + 1)
        binaryTail tightness n
          (Tree.node .binary [left.as .left, operator.as .operator, right.as .right])
      else return left
    | none => return left

/-- Operands joined by operators that bind at least as tightly as given. A private
name may stand left of `in`. -/
def binary (tightness : Nat) : Parser Tree := do
  match ← next with
  | .privateName spelling =>
    let name ← take .privateIdentifier spelling
    require (← atWord "in")
    binaryTail r tightness (← budget) name
  | _ => binaryTail r tightness (← budget) (← unary r)

/-- A condition with its two branches, or an expression without a condition. -/
def conditional : Parser Tree := do
  let condition ← binary r 0
  if ← atSymbol "?" then
    let mark ← symbol "?"
    let consequence ← r.assignment
    let colon ← symbol ":"
    let alternative ← r.assignment
    return Tree.node .ternary [condition, mark, consequence, colon, alternative]
  else return condition

/-- `yield` with or without an operand. -/
def yieldExpression : Parser Tree := do
  let word ← keyword "yield"
  if ← atSymbol "*" then
    let star ← symbol "*"
    let operand ← r.assignment
    return Tree.node .yield [word, star, operand]
  else if (← gap) == .none && (← next).startsOperand then
    let operand ← r.assignment
    return Tree.node .yield [word, operand]
  else return Tree.node .yield [word]

/-- The operators that assign after computing. -/
def compoundOperators : List String :=
  ["+=", "-=", "*=", "/=", "%=", "^=", "&=", "|=", ">>=", ">>>=", "<<=", "**=", "&&=", "||=", "??="]

/-- An expression without a comma. -/
def assignment : Parser Tree := do
  if ← atWord "yield" then yieldExpression r
  else
    let left ← conditional r
    match ← next with
    | .symbol spelling =>
      if spelling = "=".toText then
        match left.toTarget with
        | some target =>
          let equals ← symbol "="
          let right ← r.assignment
          return Tree.node .assignment [target.as .left, equals, right.as .right]
        | none => reject
      else if (Token.symbol spelling).isSymbolOf compoundOperators then
        require left.isSimpleTarget
        let operator ← take .token spelling
        let right ← r.assignment
        return Tree.node .compoundAssignment [left.as .left, operator.as .operator, right.as .right]
      else return left
    | _ => return left

end Unproxy.Syntax.Parser
