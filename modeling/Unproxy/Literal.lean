import Unproxy.Access.Position
import Unproxy.Json.Writer
import Unproxy.Number.Spelling

/-!
# Unproxy.Literal

Decoded values as JavaScript source.

Main definitions:

* `Literal.string`: a string literal; surrogates are escaped;
* `Value.source`: the source of a value, if it has one;
* `Value.literal`: the source and how tightly it holds together;
* `Value.field`: the entry that a property name selects from a table.
-/

namespace Unproxy

namespace Literal

/-- Surrogates become escapes, all else stays. -/
def escapeSurrogate (c : CodePoint) : Text :=
  if c.isSurrogate then "\\u".toText ++ Text.hex 4 c.val else [c]

/-- A string literal in double quotes. -/
def string (t : Text) : Text := (Json.writeString t).flatMap escapeSurrogate

end Literal

namespace Number

/-- Below zero, or negative zero. -/
def isBelowZero : Number → Bool
  | .int i => i < 0
  | .float .nan => false
  | .float f => f.isNegative

/-- The number without its sign. -/
def magnitude : Number → Number
  | .int i => .int i.natAbs
  | .float f => .float (if f.isNegative then f.negate else f)

/-- The source of a number; infinities and not-a-number have none. -/
def source (n : Number) : Except Error (Option Text) :=
  match n with
  | .float .nan | .float (.infinite _) => .ok none
  | n =>
    if n.isBelowZero then (n.magnitude.spelling).map fun t => some (CodePoint.ofChar '-' :: t)
    else n.spelling.map some

end Number

namespace Value

mutual

/-- The source of a value. Arrays and objects have one if all their parts do. -/
def source : Value → Except Number.Error (Option Text)
  | .null => .ok (some "null".toText)
  | .bool b => .ok (some (if b then "true".toText else "false".toText))
  | .text t => .ok (some (Literal.string t))
  | .number n => n.source
  | .array items =>
    match sourceItems items with
    | .error e => .error e
    | .ok none => .ok none
    | .ok (some parts) => .ok (some ("[".toText ++ Text.join ", ".toText parts ++ "]".toText))
  | .object members =>
    match sourceMembers members with
    | .error e => .error e
    | .ok none => .ok none
    | .ok (some parts) => .ok (some ("\x7b".toText ++ Text.join ", ".toText parts ++ "\x7d".toText))
  | .other _ => .ok none

/-- The sources of items, up to the first that has none. -/
def sourceItems : List Value → Except Number.Error (Option (List Text))
  | [] => .ok (some [])
  | item :: items =>
    match source item with
    | .error e => .error e
    | .ok none => .ok none
    | .ok (some part) =>
      match sourceItems items with
      | .error e => .error e
      | .ok none => .ok none
      | .ok (some parts) => .ok (some (part :: parts))

/-- The sources of members, up to the first that has none. Keys become string
literals. -/
def sourceMembers : List (Key × Value) → Except Number.Error (Option (List Text))
  | [] => .ok (some [])
  | (key, value) :: members =>
    match source value with
    | .error e => .error e
    | .ok none => .ok none
    | .ok (some part) =>
      match sourceMembers members with
      | .error e => .error e
      | .ok none => .ok none
      | .ok (some parts) =>
        .ok (some ((Literal.string key.toText ++ ": ".toText ++ part) :: parts))

end

/-- How tightly the source of a value holds together. -/
def strength : Value → Syntax.Strength
  | .object _ => .compound
  | .number n => if n.isBelowZero then .compound else .number
  | _ => .primary

/-- The source of a value with its strength. -/
def literal (value : Value) : Except Number.Error (Option (Text × Syntax.Strength)) :=
  value.source.map fun source => source.map fun t => (t, value.strength)

/-- The digits of an index: ASCII digits without a zero in front. -/
def isIndex (field : Text) : Bool :=
  match field with
  | [] => false
  | c :: rest => field.all CodePoint.isDigit && (rest.isEmpty || c ≠ CodePoint.ofChar '0')

/-- The entry that a property name selects: a member of an object, an item or the
length of an array. -/
def field (table : Value) (name : Text) : Except Number.Error (Option Value) :=
  match table with
  | .object _ => .ok (table.member? name)
  | .array items =>
    if name = "length".toText then .ok (some (.number (.int items.length)))
    else if isIndex name then
      (Number.readInt 10 name).map fun index => items[index.toNat]?
    else .ok none
  | _ => .ok none

end Value

end Unproxy
