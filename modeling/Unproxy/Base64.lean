import Unproxy.Text.Utf8

/-!
# Unproxy.Base64

Strict base64: nothing but the alphabet and padding at the end. Bits left over at
the end are ignored.
-/

namespace Unproxy.Base64

/-- What is wrong with a text. -/
inductive Error where
  | notAscii
  | leadingPadding
  | excessData
  | foreignCharacter
  | interruptedPadding
  /-- One data character is left over; the count is of all of them. -/
  | looseCharacter (count : Nat)
  | missingPadding
  deriving DecidableEq, Repr

/-- The wording of a failed decoding. -/
def Error.message : Error → Text
  | .notAscii => "string argument should contain only ASCII characters".toText
  | .leadingPadding => "Leading padding not allowed".toText
  | .excessData => "Excess data after padding".toText
  | .foreignCharacter => "Only base64 data is allowed".toText
  | .interruptedPadding => "Discontinuous padding not allowed".toText
  | .looseCharacter count =>
    "Invalid base64-encoded string: number of data characters (".toText ++ Text.ofNat count ++
      ") cannot be 1 more than a multiple of 4".toText
  | .missingPadding => "Incorrect padding".toText

/-- The six bits of a data character. -/
def digit? (c : CodePoint) : Option Nat :=
  if c.isUpper then some (c.val - 0x41)
  else if c.isLower then some (c.val - 0x61 + 26)
  else if c.isDigit then some (c.val - 0x30 + 52)
  else if c = '+' then some 62
  else if c = '/' then some 63
  else none

/-- Where the decoder stands: its place in the group of four, the bits not written
yet, the padding seen, whether padding has begun, and how many bytes are out. -/
structure State where
  quad : Nat
  left : Nat
  pads : Nat
  padded : Bool
  written : Nat

/-- Takes the six bits of a data character; every one but the first of a group
completes a byte. -/
def State.push (s : State) (value : Nat) : Bytes × State :=
  match s.quad with
  | 0 => ([], { s with quad := 1, left := value, pads := 0 })
  | 1 =>
    ([UInt8.ofNat (s.left * 4 + value / 16)],
      { s with quad := 2, left := value % 16, pads := 0, written := s.written + 1 })
  | 2 =>
    ([UInt8.ofNat (s.left * 16 + value / 4)],
      { s with quad := 3, left := value % 4, pads := 0, written := s.written + 1 })
  | _ =>
    ([UInt8.ofNat (s.left * 64 + value)],
      { s with quad := 0, left := 0, pads := 0, written := s.written + 1 })

/-- Decodes what is left. -/
def decodeFrom (s : State) : Text → Except Error Bytes
  | [] =>
    if s.quad = 0 then .ok []
    else if s.quad = 1 then .error (.looseCharacter (s.written / 3 * 4 + 1))
    else .error .missingPadding
  | c :: rest =>
    if c = '=' then
      if 2 ≤ s.quad && 4 ≤ s.quad + s.pads + 1 then
        if rest.isEmpty then .ok [] else .error .excessData
      else
        decodeFrom
          { s with pads := if 2 ≤ s.quad then s.pads + 1 else s.pads, padded := true } rest
    else
      match digit? c with
      | none => .error .foreignCharacter
      | some value =>
        if s.padded then .error .interruptedPadding
        else
          let (bytes, s) := s.push value
          (decodeFrom s rest).map (bytes ++ ·)

/-- The bytes of a padded text. -/
def decode (t : Text) : Except Error Bytes :=
  if !t.all CodePoint.isAscii then .error .notAscii
  else if t.head? = some (CodePoint.ofChar '=') then .error .leadingPadding
  else decodeFrom ⟨0, 0, 0, false, 0⟩ t

end Unproxy.Base64
