import Unproxy.Value.Basic

/-!
# Unproxy.Json.Writer

Writes JSON. Only what has to be escaped is: quotes, backslashes and control
characters.
-/

namespace Unproxy.Json

/-- One code point of a string. -/
def escaped (c : CodePoint) : Text :=
  if c = '"' then "\\\"".toText
  else if c = '\\' then "\\\\".toText
  else if c.val = 0x0A then "\\n".toText
  else if c.val = 0x0D then "\\r".toText
  else if c.val = 0x09 then "\\t".toText
  else if c.val = 0x0C then "\\f".toText
  else if c.val = 0x08 then "\\b".toText
  else if c.val < 0x20 then "\\u".toText ++ Text.hex 4 c.val
  else [c]

/-- A string in quotes. -/
def writeString (t : Text) : Text :=
  CodePoint.ofChar '"' :: t.flatMap escaped ++ [CodePoint.ofChar '"']

/-- A number; infinities and not-a-number have names. -/
def writeNumber : Number → Text
  | .int i => Text.ofInt i
  | .float .nan => "NaN".toText
  | .float (.infinite negative) => if negative then "-Infinity".toText else "Infinity".toText
  | .float f => f.text

/-- The start of a line at a depth, two blanks for each level. -/
def newline (depth : Nat) : Text :=
  CodePoint.ofChar '\n' :: List.replicate (2 * depth) (CodePoint.ofChar ' ')

mutual

/-- A value over several lines, from a depth on. -/
def writeAt (depth : Nat) : Value → Text
  | .null => "null".toText
  | .bool b => if b then "true".toText else "false".toText
  | .number n => writeNumber n
  | .text t => writeString t
  | .array [] => "[]".toText
  | .array (item :: items) =>
    "[".toText ++ newline (depth + 1) ++ writeAt (depth + 1) item ++ writeItems (depth + 1) items ++
      newline depth ++ "]".toText
  | .object [] => "\x7b\x7d".toText
  | .object ((key, value) :: members) =>
    "\x7b".toText ++ newline (depth + 1) ++ writeString key.toText ++ ": ".toText ++
      writeAt (depth + 1) value ++ writeMembers (depth + 1) members ++ newline depth ++ "\x7d".toText
  | .other name => writeString (Value.other name).display

/-- Further items of an array. -/
def writeItems (depth : Nat) : List Value → Text
  | [] => []
  | item :: items => ",".toText ++ newline depth ++ writeAt depth item ++ writeItems depth items

/-- Further members of an object. -/
def writeMembers (depth : Nat) : List (Key × Value) → Text
  | [] => []
  | (key, value) :: members =>
    ",".toText ++ newline depth ++ writeString key.toText ++ ": ".toText ++ writeAt depth value ++
      writeMembers depth members

end

/-- A value over several lines. -/
def write (value : Value) : Text := writeAt 0 value

end Unproxy.Json
