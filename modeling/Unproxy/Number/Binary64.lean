/-!
# Unproxy.Number.Binary64

Double precision numbers, kept exactly: a sign, a significand below `2 ^ 53` and
an exponent of two. Arithmetic on them is arithmetic on natural numbers, so
nothing depends on the machine.

Main definitions:

* `Binary64`: zeros and finite numbers, infinities, not-a-number;
* `Binary64.ofRatio`: the nearest number to a quotient, ties to even;
* `Binary64.ofDecimal`, `Binary64.ofInt?`: the same for decimals and integers;
* `Binary64.ratio`, `Binary64.truncate?`: the value as a quotient or an integer.
-/

namespace Unproxy

/-- The power of two with an exponent. -/
def twoTo (exponent : Nat) : Nat := Nat.pow 2 exponent

/-- The power of ten with an exponent. -/
def tenTo (exponent : Nat) : Nat := Nat.pow 10 exponent

/-- A double precision number. A finite one has the value
`significand * 2 ^ exponent`; its exponent is at least `-1074`, and its
significand is at least `2 ^ 52` unless the exponent is the least one. -/
inductive Binary64 where
  | finite (negative : Bool) (significand : Nat) (exponent : Int)
  | infinite (negative : Bool)
  | nan
  deriving DecidableEq, Repr

namespace Binary64

/-- The integer nearest to a quotient; a half goes to the even neighbour. -/
def roundDiv (num den : Nat) : Nat :=
  let q := num / den
  let r := num % den
  if den < 2 * r || (2 * r == den && q % 2 == 1) then q + 1 else q

/-- The quotient `num / den` times a power of two, as numerator and denominator. -/
def scale (num den : Nat) (power : Int) : Nat × Nat :=
  if 0 ≤ power then (num * twoTo power.toNat, den) else (num, den * twoTo (-power).toNat)

/-- The greatest `k` with `2 ^ k ≤ num / den`, for positive numbers. -/
def floorLog2 (num den : Nat) : Int :=
  let k : Int := (num.log2 : Int) - den.log2
  let (n, d) := scale num den (-k)
  if n < d then k - 1 else k

/-- The least exponent. -/
def minExponent : Int := -1074

/-- The greatest exponent. -/
def maxExponent : Int := 971

/-- Zero of either sign. -/
def signedZero (negative : Bool) : Binary64 := .finite negative 0 minExponent

/-- Whether a double is in the form in which doubles are kept. -/
def isCanonical : Binary64 → Bool
  | .finite _ significand exponent =>
    significand < twoTo 53 && (twoTo 52 ≤ significand || exponent = minExponent) &&
      minExponent ≤ exponent && exponent ≤ maxExponent
  | _ => true

/-- The number nearest to `num / den`, ties to the even significand; beyond the
greatest number it is infinite. -/
def ofRatio (negative : Bool) (num den : Nat) : Binary64 :=
  if num = 0 then signedZero negative
  else
    let exponent := max minExponent (floorLog2 num den - 52)
    let (n, d) := scale num den (-exponent)
    let significand := roundDiv n d
    let (significand, exponent) :=
      if significand = twoTo 53 then (twoTo 52, exponent + 1) else (significand, exponent)
    if maxExponent < exponent then .infinite negative else .finite negative significand exponent

/-- How many decimal digits a number has; zero has none. -/
def decimalLength (n : Nat) : Nat := if n = 0 then 0 else (Nat.toDigits 10 n).length

/-- The number nearest to `significand * 10 ^ exponent`. Numbers far beyond the
range are decided without computing the power. -/
def ofDecimal (negative : Bool) (significand : Nat) (exponent : Int) : Binary64 :=
  let magnitude := (decimalLength significand : Int) + exponent
  if significand = 0 || magnitude < -330 then signedZero negative
  else if 310 < magnitude then .infinite negative
  else if 0 ≤ exponent then ofRatio negative (significand * tenTo exponent.toNat) 1
  else ofRatio negative significand (tenTo (-exponent).toNat)

/-- The number nearest to an integer, unless that is beyond the greatest one. -/
def ofInt? (i : Int) : Option Binary64 :=
  match ofRatio (i < 0) i.natAbs 1 with
  | .finite negative significand exponent => some (.finite negative significand exponent)
  | _ => none

/-- The magnitude of a finite number as numerator and denominator. -/
def ratio (significand : Nat) (exponent : Int) : Nat × Nat := scale significand 1 exponent

/-- Neither infinite nor not-a-number. -/
def isFinite : Binary64 → Bool
  | .finite .. => true
  | _ => false

/-- The sign bit; not-a-number has none here. -/
def isNegative : Binary64 → Bool
  | .finite negative .. | .infinite negative => negative
  | .nan => false

/-- The number with the other sign. -/
def negate : Binary64 → Binary64
  | .finite negative significand exponent => .finite (!negative) significand exponent
  | .infinite negative => .infinite (!negative)
  | .nan => .nan

/-- The sign applied to a magnitude. -/
def signed (negative : Bool) (magnitude : Nat) : Int := if negative then -(magnitude : Int) else magnitude

/-- The integer next to a finite number in the direction of zero. -/
def truncate? : Binary64 → Option Int
  | .finite negative significand exponent =>
    let (n, d) := ratio significand exponent
    some (signed negative (n / d))
  | _ => none

/-- The value of a number that is an integer. -/
def integer? : Binary64 → Option Int
  | .finite negative significand exponent =>
    let (n, d) := ratio significand exponent
    if n % d = 0 then some (signed negative (n / d)) else none
  | _ => none

end Binary64

end Unproxy
