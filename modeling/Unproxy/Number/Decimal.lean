import Unproxy.Number.Binary64
import Unproxy.Text.Basic

/-!
# Unproxy.Number.Decimal

The decimal form of double precision numbers: the fewest digits that read back
as the same number, and of those the nearest to it.

Main definitions:

* `Decimal`: a significand and an exponent of ten;
* `Binary64.shortest`: the shortest decimal that reads back;
* `ExponentStyle`, `Decimal.write`: positional or exponent form;
* `Binary64.text`: a number as messages show it;
* `Binary64.fixed`: a number with a fixed count of decimal places.
-/

namespace Unproxy

/-- The number `significand * 10 ^ exponent`. -/
structure Decimal where
  significand : Nat
  exponent : Int
  deriving DecidableEq, Repr

namespace Binary64

/-- A range of numbers `low / den` to `high / den`; its ends belong to it if
`closed` holds. -/
structure Interval where
  low : Nat
  high : Nat
  den : Nat
  closed : Bool

/-- Whether `significand * 10 ^ exponent` lies in a range. -/
def Interval.contains (i : Interval) (significand : Nat) (exponent : Int) : Bool :=
  let point := if 0 ≤ exponent then significand * tenTo exponent.toNat * i.den else significand * i.den
  let unit := if 0 ≤ exponent then 1 else tenTo (-exponent).toNat
  if i.closed then i.low * unit ≤ point && point ≤ i.high * unit
  else i.low * unit < point && point < i.high * unit

/-- The numbers that round to a positive one. Below a power of two they are half
as dense. -/
def rounding (significand : Nat) (exponent : Int) : Interval :=
  let below := if significand = twoTo 52 && minExponent < exponent then 1 else 2
  let (low, den) := scale (4 * significand - below) 1 (exponent - 2)
  let (high, _) := scale (4 * significand + 2) 1 (exponent - 2)
  ⟨low, high, den, significand % 2 == 0⟩

/-- The least `p` with `num / den < 10 ^ p`, for positive numbers. -/
def decimalPoint (num den : Nat) : Int :=
  if den ≤ num then decimalLength (num / den)
  else 1 - (decimalLength ((den + num - 1) / num - 1) : Int)

/-- The nearer of a number's two neighbours among the multiples of
`10 ^ exponent`, as far as they lie in the range. A tie goes to the even one. -/
def neighbour? (num den : Nat) (i : Interval) (exponent : Int) : Option Nat :=
  let (n, d) :=
    if 0 ≤ exponent then (num, den * tenTo exponent.toNat) else (num * tenTo (-exponent).toNat, den)
  let low := n / d
  let rest := n % d
  match i.contains low exponent, i.contains (low + 1) exponent with
  | true, true =>
    some (if 2 * rest < d || (2 * rest == d && low % 2 == 0) then low else low + 1)
  | true, false => some low
  | false, true => some (low + 1)
  | false, false => none

/-- Drops zeros at the end of a significand; the first argument bounds their
number. -/
def dropZeros : Nat → Decimal → Decimal
  | 0, d => d
  | n + 1, d =>
    if d.significand % 10 = 0 then dropZeros n ⟨d.significand / 10, d.exponent + 1⟩ else d

/-- The decimal with the fewest digits that rounds to a positive number. Seventeen
digits are always enough. -/
def shortest (significand : Nat) (exponent : Int) : Decimal :=
  let (num, den) := ratio significand exponent
  let i := rounding significand exponent
  let point := decimalPoint num den
  let found := (List.range 17).findSome? fun k =>
    let place := point - (k + 1 : Nat)
    (neighbour? num den i place).map fun digits => (⟨digits, place⟩ : Decimal)
  dropZeros 17 (found.getD ⟨0, 0⟩)

end Binary64

/-- How an exponent is written: always with a sign, and with zeros in front up to
a width. -/
structure ExponentStyle where
  width : Nat
  deriving DecidableEq, Repr

namespace Decimal

/-- Digits and an exponent: a point behind the first digit if there are more. -/
def writeExponent (style : ExponentStyle) (digits : Text) (exponent : Int) : Text :=
  let mantissa :=
    match digits with
    | first :: second :: rest => first :: '.' :: second :: rest
    | digits => digits
  let power := Text.ofNat exponent.natAbs
  let zeros := List.replicate (style.width - power.length) (CodePoint.ofChar '0')
  mantissa ++ CodePoint.ofChar 'e' :: (if exponent < 0 then '-' else '+') :: zeros ++ power

/-- Digits with a point among them; an integer gets a zero behind its point. -/
def writePositional (digits : Text) (point : Int) : Text :=
  if point ≤ 0 then
    "0.".toText ++ List.replicate (-point).toNat (CodePoint.ofChar '0') ++ digits
  else if digits.length ≤ point.toNat then
    digits ++ List.replicate (point.toNat - digits.length) (CodePoint.ofChar '0') ++ ".0".toText
  else digits.take point.toNat ++ CodePoint.ofChar '.' :: digits.drop point.toNat

/-- Positional if the first digit stands for a power of ten from `-4` to `15`,
with an exponent otherwise. -/
def write (style : ExponentStyle) (d : Decimal) : Text :=
  let digits := Text.ofNat d.significand
  let point := (digits.length : Int) + d.exponent
  if -4 < point && point ≤ 16 then writePositional digits point
  else writeExponent style digits (point - 1)

end Decimal

namespace Binary64

/-- The sign in front of a text. -/
def withSign (negative : Bool) (t : Text) : Text := if negative then CodePoint.ofChar '-' :: t else t

/-- A number with its exponent, if it needs one, in the given style. -/
def write (style : ExponentStyle) : Binary64 → Text
  | .nan => "nan".toText
  | .infinite negative => withSign negative "inf".toText
  | .finite negative significand exponent =>
    if significand = 0 then withSign negative "0.0".toText
    else withSign negative ((shortest significand exponent).write style)

/-- A number as messages show it: exponents have two digits at least. -/
def text (f : Binary64) : Text := f.write ⟨2⟩

/-- A number with the given count of decimal places, a half going to the even
neighbour. -/
def fixed (places : Nat) : Binary64 → Text
  | .nan => "nan".toText
  | .infinite negative => withSign negative "inf".toText
  | .finite negative significand exponent =>
    let (n, d) := ratio significand exponent
    let scaled := roundDiv (n * tenTo places) d
    let fraction := Text.ofNat (scaled % tenTo places)
    withSign negative
      (Text.ofNat (scaled / tenTo places) ++ CodePoint.ofChar '.' ::
        List.replicate (places - fraction.length) (CodePoint.ofChar '0') ++ fraction)

end Binary64

end Unproxy
