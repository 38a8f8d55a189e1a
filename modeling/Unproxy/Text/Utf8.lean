import Unproxy.Text.Quoted

/-!
# Unproxy.Text.Utf8

The UTF-8 form of a text.

* `Utf8.encode` writes every code point; a surrogate takes the three bytes its
  number asks for, and `Utf8.checkEncodable` says which texts hold none.
* `Utf8.decode` reads strict UTF-8 and says which bytes are at fault otherwise.
-/

namespace Unproxy

/-- A sequence of bytes. -/
abbrev Bytes := List UInt8

namespace Utf8

/-- The bytes of one code point. -/
def encodeOne (c : CodePoint) : Bytes :=
  let n := c.val
  if n < 0x80 then [UInt8.ofNat n]
  else if n < 0x800 then [UInt8.ofNat (0xC0 + n / 0x40), UInt8.ofNat (0x80 + n % 0x40)]
  else if n < 0x10000 then
    [UInt8.ofNat (0xE0 + n / 0x1000), UInt8.ofNat (0x80 + n / 0x40 % 0x40),
      UInt8.ofNat (0x80 + n % 0x40)]
  else
    [UInt8.ofNat (0xF0 + n / 0x40000), UInt8.ofNat (0x80 + n / 0x1000 % 0x40),
      UInt8.ofNat (0x80 + n / 0x40 % 0x40), UInt8.ofNat (0x80 + n % 0x40)]

/-- The bytes of a text. -/
def encode (t : Text) : Bytes := t.flatMap encodeOne

/-- The number of bytes a code point takes. -/
def width (c : CodePoint) : Nat :=
  if c.val < 0x80 then 1 else if c.val < 0x800 then 2 else if c.val < 0x10000 then 3 else 4

/-- The first run of surrogates in a text that has one: its position and the run. -/
structure EncodeError where
  position : Nat
  run : Text
  deriving DecidableEq, Repr

/-- The wording names the code point if there is one only. -/
def EncodeError.message (e : EncodeError) : Text :=
  let head := "'utf-8' codec can't encode character".toText
  match e.run with
  | [c] =>
    head ++ " ".toText ++ Text.quoted [c] ++ " in position ".toText ++ Text.ofNat e.position ++
      ": surrogates not allowed".toText
  | run =>
    head ++ "s in position ".toText ++ Text.ofNat e.position ++ "-".toText ++
      Text.ofNat (e.position + run.length - 1) ++ ": surrogates not allowed".toText

/-- Looks for a surrogate. -/
def checkEncodable (t : Text) : Except EncodeError Unit :=
  match t.dropWhile (!·.isSurrogate) with
  | [] => .ok ()
  | rest => .error ⟨t.length - rest.length, rest.takeWhile (·.isSurrogate)⟩

/-- What is wrong with a byte sequence. -/
inductive Flaw where
  | start
  | continuation
  | truncated
  deriving DecidableEq, Repr

/-- Bytes that are not UTF-8: where they start, the bytes, what is wrong. -/
structure DecodeError where
  position : Nat
  bytes : Bytes
  flaw : Flaw
  deriving DecidableEq, Repr

/-- The reason as messages give it. -/
def Flaw.message : Flaw → Text
  | .start => "invalid start byte".toText
  | .continuation => "invalid continuation byte".toText
  | .truncated => "unexpected end of data".toText

/-- The wording names the byte if there is one only. -/
def DecodeError.message (e : DecodeError) : Text :=
  let head := "'utf-8' codec can't decode byte".toText
  let tail := ": ".toText ++ e.flaw.message
  match e.bytes with
  | [b] =>
    head ++ " 0x".toText ++ Text.hex 2 b.toNat ++ " in position ".toText ++
      Text.ofNat e.position ++ tail
  | bytes =>
    head ++ "s in position ".toText ++ Text.ofNat e.position ++ "-".toText ++
      Text.ofNat (e.position + bytes.length - 1) ++ tail

/-- A byte of the form `10xxxxxx`. -/
def isContinuation (b : UInt8) : Bool := 0x80 ≤ b.toNat && b.toNat < 0xC0

/-- Whether `b` may follow the first byte of a longer sequence: overlong forms,
surrogates and numbers beyond the last code point are shut out here. -/
def isSecond (first b : UInt8) : Bool :=
  isContinuation b &&
    (if first.toNat == 0xE0 then 0xA0 ≤ b.toNat
    else if first.toNat == 0xED then b.toNat < 0xA0
    else if first.toNat == 0xF0 then 0x90 ≤ b.toNat
    else if first.toNat == 0xF4 then b.toNat < 0x90
    else true)

/-- The payload of a continuation byte. -/
def tail (b : UInt8) : Nat := b.toNat % 0x40

/-- Reads from a position on. -/
def decodeFrom (position : Nat) : Bytes → Except DecodeError Text
  | [] => .ok []
  | a :: rest =>
    if a.toNat < 0x80 then
      (decodeFrom (position + 1) rest).map (CodePoint.ofNat a.toNat :: ·)
    else if a.toNat < 0xC2 || 0xF4 < a.toNat then .error ⟨position, [a], .start⟩
    else if a.toNat < 0xE0 then
      match rest with
      | [] => .error ⟨position, [a], .truncated⟩
      | b :: rest =>
        if isContinuation b then
          (decodeFrom (position + 2) rest).map (CodePoint.ofNat (a.toNat % 0x20 * 0x40 + tail b) :: ·)
        else .error ⟨position, [a], .continuation⟩
    else if a.toNat < 0xF0 then
      match rest with
      | [] => .error ⟨position, [a], .truncated⟩
      | [b] => if isSecond a b then .error ⟨position, [a, b], .truncated⟩
        else .error ⟨position, [a], .continuation⟩
      | b :: c :: rest =>
        if !isSecond a b then .error ⟨position, [a], .continuation⟩
        else if !isContinuation c then .error ⟨position, [a, b], .continuation⟩
        else
          (decodeFrom (position + 3) rest).map
            (CodePoint.ofNat (a.toNat % 0x10 * 0x1000 + tail b * 0x40 + tail c) :: ·)
    else
      match rest with
      | [] => .error ⟨position, [a], .truncated⟩
      | [b] => if isSecond a b then .error ⟨position, [a, b], .truncated⟩
        else .error ⟨position, [a], .continuation⟩
      | [b, c] =>
        if !isSecond a b then .error ⟨position, [a], .continuation⟩
        else if !isContinuation c then .error ⟨position, [a, b], .continuation⟩
        else .error ⟨position, [a, b, c], .truncated⟩
      | b :: c :: d :: rest =>
        if !isSecond a b then .error ⟨position, [a], .continuation⟩
        else if !isContinuation c then .error ⟨position, [a, b], .continuation⟩
        else if !isContinuation d then .error ⟨position, [a, b, c], .continuation⟩
        else
          (decodeFrom (position + 4) rest).map
            (CodePoint.ofNat (a.toNat % 8 * 0x40000 + tail b * 0x1000 + tail c * 0x40 + tail d) :: ·)

/-- Reads strict UTF-8. -/
def decode (bytes : Bytes) : Except DecodeError Text := decodeFrom 0 bytes

end Utf8

end Unproxy
