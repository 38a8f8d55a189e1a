import Unproxy.Text.Utf8

/-!
# Unproxy.Edit

Replacements in a text, addressed by bytes. Edits are applied from the highest
start down, so that what lies before an edit keeps its place. Edits with the same
start are applied in the given order, each to the result of the one before.
-/

namespace Unproxy

/-- Replace the bytes from `start` up to `stop` by a text. -/
structure Edit where
  start : Nat
  stop : Nat
  replacement : Text
  deriving DecidableEq, Repr

namespace Edit

/-- Why edits cannot be applied. -/
inductive Error where
  /-- A replacement has no UTF-8 form. -/
  | unencodable (error : Utf8.EncodeError)
  /-- The result is not UTF-8: an edit cuts through a code point. -/
  | undecodable (error : Utf8.DecodeError)
  deriving DecidableEq, Repr

/-- The wording of failed edits. -/
def Error.message : Error → Text
  | .unencodable error => error.message
  | .undecodable error => error.message

/-- A place in a row of the given length: negative ones count from the end, and
what lies outside is moved to the nearer end. -/
def clamp (length : Nat) (i : Int) : Nat :=
  if i < 0 then (i + length).toNat else min i.toNat length

/-- Replaces a stretch of bytes. If the stretch ends before it starts, the text is
put in at its start. -/
def splice (bytes : Bytes) (start stop : Int) (text : Bytes) : Bytes :=
  let low := clamp bytes.length start
  let high := max low (clamp bytes.length stop)
  bytes.take low ++ text ++ bytes.drop high

/-- The edits from the highest start down; the order of equal ones stays. -/
def ordered (edits : List Edit) : List Edit := edits.mergeSort fun a b => b.start ≤ a.start

/-- Applies edits in the order given to bytes whose first one has the number
`offset`. -/
def applyInOrder (offset : Nat) : List Edit → Bytes → Except Error Bytes
  | [], bytes => .ok bytes
  | edit :: edits, bytes =>
    match Utf8.checkEncodable edit.replacement with
    | .error error => .error (.unencodable error)
    | .ok () =>
      applyInOrder offset edits
        (splice bytes (edit.start - offset) (edit.stop - offset) (Utf8.encode edit.replacement))

/-- Applies edits to bytes whose first one has the number `offset`. -/
def applyAll (bytes : Bytes) (edits : List Edit) (offset : Nat) : Except Error Text :=
  match applyInOrder offset (ordered edits) bytes with
  | .error error => .error error
  | .ok result =>
    match Utf8.decode result with
    | .ok t => .ok t
    | .error error => .error (.undecodable error)

end Edit

end Unproxy
