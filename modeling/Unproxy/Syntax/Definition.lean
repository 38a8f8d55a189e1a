import Unproxy.Syntax.Rules
import Unproxy.Syntax.Pattern

/-!
# Unproxy.Syntax.Definition

Functions, classes, and array and object literals.
-/

namespace Unproxy.Syntax.Parser

variable (r : Rules)

/-! ### Functions -/

/-- Turns a reader's result into a pattern. -/
def pattern (t : Tree) : Parser Tree :=
  match t.toPattern with
  | some p => pure p
  | none => reject

/-- Turns a row into patterns. -/
def patterns (ts : List Tree) : Parser (List Tree) :=
  match Tree.toPatterns ts with
  | some ps => pure ps
  | none => reject

/-- The parameters of a function in parentheses. -/
def parameters : Parser Tree := do
  let opening ← symbol "("
  let items ← commaList ")" false (spreadable r) (← budget)
  let closing ← symbol ")"
  return Tree.node .parameters (opening :: (← patterns items) ++ [closing])

/-- Parameters and body. -/
def signatureAndBody : Parser (List Tree) := do
  let parameters ← parameters r
  let body ← block r
  return [parameters, body.as .body]

/-- A function behind the modifiers read so far. A generator has an asterisk. As
a declaration it needs a name. -/
def functionFrom (modifiers : List Tree) (declaration : Bool) : Parser Tree := do
  let word ← keyword "function"
  let star ← symbol? "*"
  let name ← (do
    if (← next).isIdentifier || (← atWord "yield") then
      match ← next with
      | .name spelling => return [(← take .identifier spelling).as .name]
      | _ => reject
    else
      require !declaration
      return [])
  let rest ← signatureAndBody r
  let kind : Kind :=
    match star, declaration with
    | [], true => .functionDeclaration
    | [], false => .function
    | _, true => .generatorDeclaration
    | _, false => .generator
  return Tree.node kind (modifiers ++ word :: star ++ name ++ rest)

/-- The arrow and the body of an arrow function, behind what stands before them. -/
def arrowFrom (head : List Tree) : Parser Tree := do
  let arrow ← symbol "=>"
  let body ← (do if ← atSymbol "\x7b" then block r else r.assignment)
  return Tree.node .arrow (head ++ [arrow, body.as .body])

/-! ### Literals -/

/-- An array literal; items may be missing. -/
def array : Parser Tree := do
  let opening ← symbol "["
  let items ← commaList "]" true (spreadable r) (← budget)
  let closing ← symbol "]"
  return Tree.node .array (opening :: items ++ [closing])

/-- The name of a property: a word, a string, a number, or an expression in
brackets. -/
def propertyName : Parser Tree := do
  match ← next with
  | .name spelling => take .propertyIdentifier spelling
  | .privateName spelling => take .privateIdentifier spelling
  | .number spelling => take .number spelling
  | .quote _ => string
  | _ =>
    let opening ← symbol "["
    let inner ← r.assignment
    let closing ← symbol "]"
    return Tree.node .computedName [opening, inner, closing]

/-- Whether the word that comes next is the name of a property itself, judged by
what follows it. -/
def isWholeName : Parser Bool := do
  let s ← second
  return s.next == .finish || s.next.isSymbolOf ["(", ",", ":", "=", ";", "\x7d"]

/-- The words and the asterisk before the name of a method. -/
def methodModifiers : Parser (List Tree) := do
  if (← next).isWordOf ["async", "get", "set"] then
    if ← isWholeName then return []
    else if ← atWord "async" then
      let word ← keyword "async"
      let star ← symbol? "*"
      return word :: star
    else if ← atWord "get" then return [← keyword "get"]
    else return [← keyword "set"]
  else symbol? "*"

/-- A method behind its modifiers and its name. -/
def methodFrom (head : List Tree) (name : Tree) : Parser Tree := do
  let rest ← signatureAndBody r
  return Tree.node .method (head ++ name.as .name :: rest)

/-- A part of an object literal. -/
def objectMember : Parser Tree := do
  if ← atSymbol "..." then spreadable r
  else
    let modifiers ← methodModifiers
    if !modifiers.isEmpty then methodFrom r modifiers (← propertyName r)
    else
      let plain := (← next).isIdentifier
      let name ← propertyName r
      if ← atSymbol "(" then methodFrom r [] name
      else if ← atSymbol ":" then
        let colon ← symbol ":"
        let value ← r.assignment
        return Tree.node .pair [name.as .key, colon, value.as .value]
      else
        require plain
        if ← atSymbol "=" then
          let equals ← symbol "="
          let value ← r.assignment
          return Tree.node .shorthandDefault
            [(name.ofKind .shorthandPattern).as .left, equals, value.as .right]
        else return name.ofKind .shorthandProperty

/-- An object literal. -/
def object : Parser Tree := do
  let opening ← symbol "\x7b"
  let members ← commaList "\x7d" true (objectMember r) (← budget)
  let closing ← symbol "\x7d"
  return Tree.node .object (opening :: members ++ [closing])

/-! ### Classes -/

/-- A field of a class behind its modifiers and its name. Its end is left. -/
def fieldFrom (head : List Tree) (name : Tree) : Parser Tree := do
  if ← atSymbol "=" then
    let equals ← symbol "="
    let value ← r.assignment
    require (← atEnd false)
    return Tree.node .field (head ++ [name.as .property, equals, value.as .value])
  else
    require (← atEnd true)
    return Tree.node .field (head ++ [name.as .property])

/-- A method or a field behind `static`, if that stands before it. -/
def classMemberFrom (head : List Tree) : Parser Tree := do
  let modifiers ← methodModifiers
  let name ← propertyName r
  if ← atSymbol "(" then methodFrom r (head ++ modifiers) name
  else
    require modifiers.isEmpty
    fieldFrom r head name

/-- A part of a class body. -/
def classMember : Parser Tree := do
  if ← atSymbol ";" then symbol ";"
  else if (← atWord "static") && !(← isWholeName) then
    let word ← keyword "static"
    if ← atSymbol "\x7b" then
      let body ← block r
      return Tree.node .staticBlock [word, body.as .body]
    else classMemberFrom r [word]
  else classMemberFrom r []

/-- A class body. -/
def classBody : Parser Tree := do
  let opening ← symbol "\x7b"
  let members ← many (do return !(← atSymbol "\x7d")) (classMember r) (← budget)
  let closing ← symbol "\x7d"
  return Tree.node .classBody (opening :: members ++ [closing])

/-- A class. `ancestor` reads the expression behind `extends`. As a declaration it
needs a name. -/
def classFrom (ancestor : Parser Tree) (declaration : Bool) : Parser Tree := do
  let word ← keyword "class"
  let name ← (do
    if (← next).isIdentifier then return [(← identifier).as .name]
    else
      require !declaration
      return [])
  let heritage ← (do
    if ← atWord "extends" then
      let extending ← keyword "extends"
      let parent ← ancestor
      return [Tree.node .classHeritage [extending, parent]]
    else return [])
  let body ← classBody r
  return Tree.node (if declaration then .classDeclaration else .classExpression)
    (word :: name ++ heritage ++ [body.as .body])

end Unproxy.Syntax.Parser
