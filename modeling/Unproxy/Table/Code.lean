import Unproxy.Base64
import Unproxy.Number.Basic
import Unproxy.Text.Utf16

/-!
# Unproxy.Table.Code

Raw tables are rows of character codes. A code is a number, or nothing where the
row has a hole or something that is no number.

Main definitions:

* `Code.unit`: the 16-bit unit a code stands for;
* `Cipher.apply`: the rolling cipher over units, which is its own inverse;
* `Code.text`: the text a row spells.
-/

namespace Unproxy

/-- An entry of a raw table. -/
abbrev Code := Option Number

namespace Code

/-- The unit of a code: its integer part modulo `2 ^ 16`; nothing, infinities and
not-a-number count zero. An integer beyond the double precision range is refused. -/
def unit : Code → Except Number.Error Nat
  | none => .ok 0
  | some (.float f) => .ok ((f.truncate?.getD 0) % 0x10000).toNat
  | some (.int i) =>
    match Binary64.ofInt? i with
    | some _ => .ok (i % 0x10000).toNat
    | none => .error .tooLarge

/-- The units of a row. -/
def units (codes : List Code) : Except Number.Error (List Nat) := codes.mapM unit

/-- The text a row spells, pairs joined. -/
def text (codes : List Code) : Except Number.Error Text := (units codes).map Utf16.decode

end Code

namespace Cipher

/-- No more bytes of a key than this count. -/
def maxKeyLength : Nat := 32

/-- The low five bits of the key bytes that count. -/
def activeKey (key : Bytes) : List Nat := (key.take maxKeyLength).map fun b => b.toNat &&& 0x1F

/-- One unit under one key byte: units without any of the bits `0xE0` stay. -/
def mask (byte unit : Nat) : Nat := if unit &&& 0xE0 = 0 then unit else unit ^^^ byte

/-- Applies the key from a place in it on; at its end it starts again. -/
def applyFrom (key : List Nat) : List Nat → List Nat → List Nat
  | _, [] => []
  | [], unit :: units =>
    match key with
    | [] => unit :: units
    | byte :: left => mask byte unit :: applyFrom key left units
  | byte :: left, unit :: units => mask byte unit :: applyFrom key left units

/-- Applies a key to a row of units. The place in the key moves on with every
unit, also with those that stay. An empty key changes nothing. -/
def apply (units : List Nat) (key : Bytes) : List Nat :=
  let active := activeKey key
  applyFrom active active units

end Cipher

end Unproxy
