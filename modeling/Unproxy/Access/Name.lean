import Unproxy.Number.Spelling
import Unproxy.Syntax.Tree
import Unproxy.Text.Utf16

/-!
# Unproxy.Access.Name

Names that can be read off a program without running it: the values of string
literals and the names of properties.

Main definitions:

* `Tree.stringValue`: what a string literal stands for;
* `Tree.propertyName`: the name of the property that `x.y` or `x[y]` names.
-/

namespace Unproxy.Access

/-- Why a name cannot be read off. -/
inductive Error where
  /-- An escape names a number beyond the last code point. -/
  | noCodePoint
  /-- An escape names a number beyond all bounds. -/
  | hugeCodePoint
  /-- A numeric literal has no value. -/
  | number (error : Number.Error)
  deriving DecidableEq, Repr

/-- The wording of a failed reading. -/
def Error.message : Error → Text
  | .noCodePoint => "chr() arg not in range(0x110000)".toText
  | .hugeCodePoint => "Python int too large to convert to C int".toText
  | .number error => error.message

/-- The code point with a number. -/
def codePoint (n : Nat) : Except Error CodePoint :=
  if h : n < 0x110000 then .ok ⟨n, h⟩
  else if n < 0x80000000 then .error .noCodePoint
  else .error .hugeCodePoint

/-- The code point that a letter behind a backslash stands for. -/
def letterEscape? (c : CodePoint) : Option CodePoint :=
  if c = 'n' then some (CodePoint.ofNat 0x0A)
  else if c = 't' then some (CodePoint.ofNat 0x09)
  else if c = 'r' then some (CodePoint.ofNat 0x0D)
  else if c = 'b' then some (CodePoint.ofNat 0x08)
  else if c = 'f' then some (CodePoint.ofNat 0x0C)
  else if c = 'v' then some (CodePoint.ofNat 0x0B)
  else if c = '0' then some (CodePoint.ofNat 0x00)
  else none

/-- Whether a text begins with a line break. -/
def startsWithBreak (t : Text) : Bool :=
  match t with
  | c :: _ => c.val == 0x0A || c.val == 0x0D || c.val == 0x2028 || c.val == 0x2029
  | [] => false

/-- What the inside of an escape, the part behind the backslash, stands for. A line
break stands for nothing, and what has no meaning stands for itself. -/
def cookBody (body : Text) : Except Error Text :=
  if startsWithBreak body then .ok []
  else
    match body with
    | u :: c :: rest =>
      if u = 'u' && c = '\x7b' then
        (codePoint (Text.valueIn 16 rest.dropLast)).map fun point => [point]
      else if u = 'u' || u = 'x' then
        (codePoint (Text.valueIn 16 (c :: rest))).map fun point => [point]
      else if body.all CodePoint.isOctalDigit then
        (codePoint (Text.valueIn 8 body)).map fun point => [point]
      else .ok body
    | [c] =>
      match letterEscape? c with
      | some point => .ok [point]
      | none =>
        if c.isOctalDigit then (codePoint (Text.valueIn 8 body)).map fun point => [point] else .ok body
    | [] => .ok []

/-- What an escape stands for. -/
def cook (escape : Text) : Except Error Text := cookBody escape.tail

/-- What a part of a string literal stands for. -/
def partValue (part : Syntax.Tree) : Except Error Text :=
  if part.kind = .escape then cook part.text else .ok part.text

end Unproxy.Access

namespace Unproxy.Syntax.Tree

open Unproxy.Access

/-- What a string literal stands for; the halves of a pair are joined. -/
def stringValue (t : Tree) : Except Access.Error Text :=
  (t.namedChildren.mapM partValue).map fun parts => Utf16.joinPairs parts.flatten

/-- A plain `x.y` or `x[y]`: nothing optional at the node itself. -/
def isPlainMember (t : Tree) : Bool :=
  (t.kind == .member || t.kind == .subscript) && (t.child? .optionalChain).isNone

/-- A plain `x.y`. -/
def isPlainDotted (t : Tree) : Bool := t.kind == .member && t.isPlainMember

/-- The name an index gives: that of a string or of a number. -/
def indexName (index : Tree) : Except Access.Error (Option Text) :=
  match index.kind with
  | .string => index.stringValue.map some
  | .number =>
    match Number.ofSpelling index.text with
    | .error error => .error (.number error)
    | .ok none => .ok none
    | .ok (some n) => (n.spelling.mapError .number).map some
  | _ => .ok none

/-- The name of the property that `x.y` or `x[y]` names, as far as the program's
text tells. Private names count as unknown. -/
def propertyName (t : Tree) : Except Access.Error (Option Text) :=
  if t.kind = .member then
    match t.child? .property with
    | some property => .ok (if property.kind = .propertyIdentifier then some property.text else none)
    | none => .ok none
  else
    match (t.child? .index).bind unwrapped with
    | some index => indexName index
    | none => .ok none

end Unproxy.Syntax.Tree
