import Unproxy.Value.Basic

/-!
# Unproxy.Value.Plain

Values that JSON can hold: every key is a text, and values of other types are shown
as messages show them. Keys that agree as texts are one key.
-/

namespace Unproxy.Value

mutual

/-- The plain form of a value. -/
def plain : Value → Value
  | .array items => .array (plainItems items)
  | .object members => .object (plainMembers members [])
  | .other name => .text (Value.other name).display
  | value => value

/-- The plain forms of items. -/
def plainItems : List Value → List Value
  | [] => []
  | item :: items => plain item :: plainItems items

/-- The plain forms of members, added to those found so far. -/
def plainMembers : List (Key × Value) → List (Key × Value) → List (Key × Value)
  | [], found => found
  | (key, value) :: members, found =>
    plainMembers members (Entries.set (Key.text key.toText) (plain value) found)

end

end Unproxy.Value
