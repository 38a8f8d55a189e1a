import Unproxy.Access.Name
import Unproxy.Scheme.Basic

/-!
# Unproxy.Access.Reference

References through the namespaces of a scheme. Parentheses around the inner parts
do not matter; anything optional does.

Main definitions:

* `Tree.namespaceKey`: the last name of `root.namespace.key`;
* `Tree.proxyAccess`: the table and the field of `root.proxy.table.field`.
-/

namespace Unproxy.Syntax.Tree

/-- A variable with the given name. -/
def isIdentifier (t : Tree) (name : Text) : Bool := t.kind == .identifier && t.text == name

/-- What the property is taken of, without parentheses. -/
def object? (t : Tree) : Option Tree := (t.child? .object).bind unwrapped

/-- Whether a node is `root.name`, dotted. -/
def isNamespace (t : Tree) (root name : Text) : Except Access.Error Bool :=
  if t.isPlainDotted && (t.object?.map fun object => object.isIdentifier root).getD false then
    t.propertyName.map fun found => found == some name
  else .ok false

/-- The key of `root.name.key` or `root.name[key]`. -/
def namespaceKey (t : Tree) (root name : Text) : Except Access.Error (Option Text) :=
  if t.isPlainMember then
    match t.object? with
    | some head => do
      if ← head.isNamespace root name then t.propertyName else return none
    | none => .ok none
  else .ok none

/-- The key of an alias that a node names. -/
def aliasKey (t : Tree) (scheme : Scheme) : Except Access.Error (Option Text) :=
  t.namespaceKey scheme.root scheme.aliasNamespace

/-- The table and the field that a node reads through the proxy namespace. -/
def proxyAccess (t : Tree) (scheme : Scheme) : Except Access.Error (Option (Text × Text)) :=
  if t.kind == .member || t.kind == .subscript then
    match t.object? with
    | some object => do
      match ← object.namespaceKey scheme.root scheme.proxyNamespace with
      | some table =>
        if scheme.keyPositions.has table && t.isPlainMember then
          return (← t.propertyName).map fun field => (table, field)
        else return none
      | none => return none
    | none => .ok none
  else .ok none

end Unproxy.Syntax.Tree
