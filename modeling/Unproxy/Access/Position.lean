import Unproxy.Edit
import Unproxy.Syntax.Cursor

/-!
# Unproxy.Access.Position

What the place of a node asks for: whether it is written to, and whether an
expression put in its place needs parentheses.

Main definitions:

* `Cursor.isWritten`: the node is assigned to, changed or deleted;
* `Strength`: how tightly an expression holds together;
* `Cursor.needsParentheses`, `Cursor.replaceBy`: the edit that puts an expression
  in the node's place.
-/

namespace Unproxy.Syntax

namespace Cursor

/-- The outermost parentheses around a node, or the node itself, and what is
around them. -/
def outermost (node : Tree) : List Tree → Tree × List Tree
  | [] => (node, [])
  | parent :: ancestors =>
    if parent.kind = .parenthesized then outermost parent ancestors else (node, parent :: ancestors)

/-- Whether a node is written, not read: left of an assignment, counted up or
down, the variable of a loop over keys or items, or deleted. Parentheses around it
do not matter. -/
def isWritten (c : Cursor) : Bool :=
  match outermost c.node c.ancestors with
  | (_, []) => false
  | (slot, parent :: _) =>
    match parent.kind with
    | .assignment | .compoundAssignment | .forIn => slot.role == some .left
    | .update => slot.role == some .argument
    | .unary => ((parent.child? .operator).map fun op => op.text == "delete".toText).getD false
    | _ => false

end Cursor

/-- How tightly an expression holds together. -/
inductive Strength where
  /-- Can stand anywhere. -/
  | primary
  /-- A number, which a point behind it would change. -/
  | number
  /-- Anything else. -/
  | compound
  deriving DecidableEq, Repr

namespace Tree

/-- How tightly an expression of a program holds together. -/
def strength (t : Tree) : Strength :=
  match t.kind with
  | .identifier | .string | .templateString | .array | .call | .member | .subscript | .parenthesized
  | .true | .false | .null | .undefined | .this | .regex => .primary
  | .number => .number
  | _ => .compound

/-- Parents in which an expression stands alone. -/
def isolatesChildren (t : Tree) : Bool :=
  match t.kind with
  | .arguments | .array | .pair | .variableDeclarator | .parenthesized | .returnStatement
  | .templateSubstitution | .computedName | .field => true
  | _ => false

end Tree

namespace Cursor

/-- Whether a compound expression in the node's place needs parentheses. -/
def isolatesCompound (c : Cursor) (parent : Tree) : Bool :=
  if parent.isolatesChildren then true
  else
    match parent.kind with
    | .assignment | .compoundAssignment => c.node.role == some .right
    | .subscript => c.node.role == some .index
    | _ => false

/-- Whether an expression in the node's place needs parentheses. -/
def needsParentheses (c : Cursor) (strength : Strength) : Bool :=
  match strength, c.ancestors with
  | .primary, _ => false
  | _, [] => false
  | .number, parent :: _ => parent.kind == .member && c.node.role == some .object
  | .compound, parent :: _ => !c.isolatesCompound parent

/-- The edit that puts an expression in the node's place. -/
def replaceBy (c : Cursor) (text : Text) (strength : Strength) : Edit :=
  ⟨c.node.start, c.node.stop,
    if c.needsParentheses strength then "(".toText ++ text ++ ")".toText else text⟩

end Cursor

end Unproxy.Syntax
