import Unproxy.Text.Basic

/-!
# Unproxy.Text.Utf16

Texts as sequences of 16-bit units. `Utf16.decode` joins a high surrogate with
the low one right behind it and keeps every other surrogate as it is.
-/

namespace Unproxy.Utf16

/-- The code point of a high and a low surrogate. -/
def pair (high low : Nat) : CodePoint :=
  CodePoint.ofNat (0x10000 + (high - 0xD800) * 0x400 + (low - 0xDC00))

/-- The units of one code point. -/
def encodeOne (c : CodePoint) : List Nat :=
  if c.val < 0x10000 then [c.val]
  else [0xD800 + (c.val - 0x10000) / 0x400, 0xDC00 + (c.val - 0x10000) % 0x400]

/-- The units of a text. -/
def encode (t : Text) : List Nat := t.flatMap encodeOne

/-- The first half of a pair. -/
def isHigh (unit : Nat) : Bool := 0xD800 ≤ unit && unit < 0xDC00

/-- The second half of a pair. -/
def isLow (unit : Nat) : Bool := 0xDC00 ≤ unit && unit < 0xE000

/-- The text of a sequence of units, pairs joined. -/
def decode : List Nat → Text
  | [] => []
  | [u] => [CodePoint.ofNat u]
  | u :: v :: rest =>
    if isHigh u && isLow v then pair u v :: decode rest
    else CodePoint.ofNat u :: decode (v :: rest)

/-- The text with neighbouring halves of a pair joined. -/
def joinPairs (t : Text) : Text := decode (encode t)

end Unproxy.Utf16
