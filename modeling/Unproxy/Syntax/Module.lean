import Unproxy.Syntax.Expression

/-!
# Unproxy.Syntax.Module

Import and export statements.
-/

namespace Unproxy.Syntax.Parser

variable (r : Rules)

/-- The name of an export: any word, or a string. -/
def exportName : Parser Tree := do
  match ← next with
  | .name spelling => take .identifier spelling
  | _ => string

/-- A name in braces, with another one behind `as`. -/
def specifier (kind : Kind) : Parser Tree := do
  let name ← exportName
  if ← atWord "as" then
    let word ← keyword "as"
    let other ← exportName
    return Tree.node kind [name.as .name, word, other]
  else return Tree.node kind [name.as .name]

/-- Specifiers in braces. -/
def specifiers (list item : Kind) : Parser Tree := do
  let opening ← symbol "\x7b"
  let items ← commaList "\x7d" false (specifier item) (← budget)
  let closing ← symbol "\x7d"
  return Tree.node list (opening :: items ++ [closing])

/-- `from` and a string, and attributes if there are any. -/
def fromClause : Parser (List Tree) := do
  let word ← keyword "from"
  let source ← string
  return [word, source]

/-- `with` and an object, if there is one. -/
def attributes : Parser (List Tree) := do
  if ← atWord "with" then
    let word ← keyword "with"
    let values ← object r
    return [Tree.node .importAttribute [word, values]]
  else return []

/-- An asterisk with a name behind `as`. -/
def namespaceImport : Parser Tree := do
  let star ← symbol "*"
  let word ← keyword "as"
  let name ← identifier
  return Tree.node .namespaceImport [star, word, name]

/-- Names in braces, or an asterisk and a name. -/
def importedNames : Parser Tree := do
  if ← atSymbol "*" then namespaceImport else specifiers .namedImports .importSpecifier

/-- What an import binds. -/
def importClause : Parser Tree := do
  if (← next).isIdentifier then
    let name ← identifier
    if ← atSymbol "," then
      let comma ← symbol ","
      let names ← importedNames
      return Tree.node .importClause [name, comma, names]
    else return Tree.node .importClause [name]
  else return Tree.node .importClause [← importedNames]

/-- An import statement. -/
def importStatement : Parser Tree := do
  let word ← keyword "import"
  let body ← (do
    match ← next with
    | .quote _ => return [← string]
    | _ =>
      let clause ← importClause
      return clause :: (← fromClause))
  let values ← attributes r
  let ending ← terminator true
  return Tree.node .importStatement (word :: body ++ values ++ ending)

/-- What follows the names of an export: a source, attributes, the end. -/
def exportTail (head : List Tree) : Parser Tree := do
  let source ← (do if ← atWord "from" then fromClause else return [])
  let values ← attributes r
  let ending ← terminator true
  return Tree.node .exportStatement (head ++ source ++ values ++ ending)

/-- A default export: a function or a class, with or without a name, or an
expression. -/
def exportDefault (head : List Tree) : Parser Tree := do
  let token ← next
  if token.isWord "function" then return Tree.node .exportStatement (head ++ [← functionFrom r [] false])
  else if token.isWord "class" then
    return Tree.node .exportStatement (head ++ [← classFrom r r.unary false])
  else
    let value ← r.assignment
    let ending ← terminator false
    return Tree.node .exportStatement (head ++ value.as .value :: ending)

/-- An export statement. -/
def exportStatement : Parser Tree := do
  let word ← keyword "export"
  if ← atSymbol "*" then
    let star ← symbol "*"
    if ← atWord "as" then
      let asWord ← keyword "as"
      let name ← exportName
      let tail ← fromClause
      exportTail r (word :: Tree.node .namespaceExport [star, asWord, name] :: tail)
    else
      let tail ← fromClause
      exportTail r (word :: star :: tail)
  else if ← atSymbol "\x7b" then
    let names ← specifiers .exportClause .exportSpecifier
    exportTail r [word, names]
  else if ← atWord "default" then
    let default ← keyword "default"
    exportDefault r [word, default]
  else
    require ((← next).isWordOf ["var", "let", "const", "function", "class", "async"])
    let declaration ← r.statement
    return Tree.node .exportStatement [word, declaration]

end Unproxy.Syntax.Parser
