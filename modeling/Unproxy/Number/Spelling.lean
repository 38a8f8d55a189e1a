import Unproxy.Number.Basic

/-!
# Unproxy.Number.Spelling

Numbers as JavaScript programs spell them.

* `Number.ofSpelling`: the value of a numeric literal; big integers have none.
* `Number.spelling`: how a number is written in a program or used as a property
  name.
-/

namespace Unproxy.Number

/-- The base a literal names behind its first zero. -/
def literalBase? (t : Text) : Option Nat :=
  match t with
  | z :: mark :: _ =>
    if z ≠ '0' then none
    else if mark.toLower = 'x' then some 16
    else if mark.toLower = 'o' then some 8
    else if mark.toLower = 'b' then some 2
    else none
  | _ => none

/-- Whether a literal is one of the old kind: a zero before more digits. -/
def hasLeadingZero (t : Text) : Bool :=
  match t with
  | z :: _ :: _ => z = '0' && t.all CodePoint.isAnyDigit
  | _ => false

/-- Whether a point or an exponent mark stands in a spelling. -/
def isFractional (t : Text) : Bool := t.any fun c => c = '.' || c = 'e' || c = 'E'

/-- The value of a numeric literal, `none` for a big integer. Underscores do not
count. A leading zero makes a literal octal if all its digits are. -/
def ofSpelling (spelling : Text) : Except Error (Option Number) :=
  let t := spelling.filter (· ≠ CodePoint.ofChar '_')
  if t.getLast? = some (CodePoint.ofChar 'n') then .ok none
  else
    match literalBase? t with
    | some base => (readInt base (t.drop 2)).map fun i => some (.int i)
    | none =>
      if hasLeadingZero t then
        (readInt (if t.all CodePoint.isOctalDigit then 8 else 10) t).map fun i => some (.int i)
      else
        match readFloat t with
        | .error e => .error e
        | .ok f =>
          if f.integer?.isSome && !isFractional t then (readInt 10 t).map fun i => some (.int i)
          else .ok (some (.float f))

/-- From here on integers are written with an exponent. -/
def exponentBound : Nat := tenTo 21

/-- The spelling of a double precision number: an integer below the bound has no
point, and an exponent has no zeros in front. -/
def floatSpelling (f : Binary64) : Text :=
  match f.integer? with
  | some i => if i.natAbs < exponentBound then Text.ofInt i else f.write ⟨1⟩
  | none => f.write ⟨1⟩

/-- The spelling of a number. An integer beyond the bound is written as the nearest
double precision number. -/
def spelling : Number → Except Error Text
  | .float f => .ok (floatSpelling f)
  | .int i =>
    if i.natAbs < exponentBound then .ok (Text.ofInt i)
    else (toFloat (.int i)).map floatSpelling

end Unproxy.Number
