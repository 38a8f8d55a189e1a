import Unproxy.Access.Name
import Unproxy.Access.Reference
import Unproxy.Log.Record
import Unproxy.Syntax.Cursor
import Unproxy.Table.Decoding

/-!
# Unproxy.Table.Extraction

Finds the raw tables of a program. A table is a function that returns an array
literal and is assigned to a member of the array namespace. The function is looked
at, never run.
-/

namespace Unproxy

namespace Syntax.Tree

/-- The named children that are not comments. -/
def expressionChildren (t : Tree) : List Tree := t.namedChildren.filter fun c => c.kind != .comment

/-- The array literal an expression is, parentheses apart. -/
def asArray? (t : Tree) : Option Tree := t.unwrapped.filter fun inner => inner.kind == .array

/-- The array literal that the first `return` of a function body returns. -/
def firstReturned? (body : Tree) : Option Tree :=
  match body.expressionChildren.find? fun s => s.kind == .returnStatement with
  | some statement => statement.expressionChildren.head?.bind asArray?
  | none => none

/-- The array literal a function returns: the body of an arrow function, or what
the first `return` at the top of its body returns. Generators return none. -/
def returnedArray? (t : Tree) : Option Tree :=
  if t.kind == .function || t.kind == .arrow then
    match t.child? .body with
    | some body => if body.kind = .statementBlock then body.firstReturned? else body.asArray?
    | none => none
  else none

/-- The slots of an array literal, given its parts and the slot under way. A comma
ends a slot; behind the last comma there is a slot only if something stands there. -/
def slots (current : Option Tree) : List Tree → List (Option Tree)
  | [] =>
    match current with
    | some t => [some t]
    | none => []
  | t :: ts =>
    if t.kind = .token && t.text = ",".toText then current :: slots none ts
    else if t.kind = .comment then slots current ts
    else slots (some t) ts

/-- The elements of an array literal; holes are `none`. -/
def elements (array : Tree) : List (Option Tree) := slots none array.children.tail.dropLast

/-- The code an element stands for: the value of a number, and nothing for all
else. -/
def elementCode : Option Tree → Except Number.Error Code
  | some t => if t.kind = .number then Number.ofSpelling t.text else .ok none
  | none => .ok none

/-- The codes of the array literal a function returns, if it returns one. -/
def returnedCodes (t : Tree) : Except Number.Error (Option (List Code)) :=
  match t.returnedArray? with
  | some array => (array.elements.mapM elementCode).map some
  | none => .ok none

/-- The table that `root.arrays.table` names, written with points and without
parentheses. -/
def tableId? (t : Tree) (scheme : Scheme) : Option Text :=
  if t.isPlainDotted then
    match t.child? .object, t.child? .property with
    | some head, some property =>
      let isArrays :=
        head.isPlainDotted &&
          ((head.child? .object).map fun object => object.isIdentifier scheme.root).getD false &&
          (head.child? .property).map Tree.text == some scheme.arrayNamespace
      if isArrays && scheme.tableIds.contains property.text then some property.text else none
    | _, _ => none
  else none

end Syntax.Tree

namespace Table

open Log Syntax

/-- The name under which extraction reports. -/
def extractionSource : Text := "proxydeob.passes.extract".toText

/-- Takes the table that a node assigns, if it does; a later array replaces an
earlier one. -/
def extractOne (scheme : Scheme) (found : Raw) (node : Tree) : Logged Number.Error Raw :=
  if node.kind = .assignment then
    match (node.child? .left).bind fun left => left.tableId? scheme with
    | some table => do
      let codes ← Logged.ofExcept
        (match (node.child? .right).bind Tree.unwrapped with
        | some right => right.returnedCodes
        | none => .ok none)
      match codes with
      | none => do
        Logged.tell .debug extractionSource
          ("assignment to table ".toText ++ table ++ " does not return a numeric array".toText)
        return found
      | some codes => do
        if found.has table then
          Logged.tell .debug extractionSource
            ("table ".toText ++ table ++ " assigned more than once; keeping the last array".toText)
        return Entries.set table codes found
    | none => pure found
  else pure found

/-- Takes the tables that a row of nodes assigns. -/
def extractFrom (scheme : Scheme) : List Tree → Raw → Logged Number.Error Raw
  | [], found => pure found
  | node :: nodes, found => do
    let found ← extractOne scheme found node
    extractFrom scheme nodes found

/-- The raw tables of a program. -/
def extract (root : Tree) (scheme : Scheme) : Logged Number.Error Raw :=
  extractFrom scheme root.preorder []

/-- The names of tables read below a node, in the order of the scheme. -/
def referenced (root : Tree) (scheme : Scheme) : Except Access.Error (List Text) := do
  let reads ← root.preorder.mapM fun node => node.proxyAccess scheme
  let names := reads.filterMap fun read => read.map Prod.fst
  return scheme.encodedTables.filter names.contains

end Table

end Unproxy
