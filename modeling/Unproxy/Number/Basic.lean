import Unproxy.Number.Decimal
import Unproxy.Text.Digit
import Unproxy.Text.Quoted
import Unproxy.Text.Space

/-!
# Unproxy.Number.Basic

Numbers as tables and programs hold them: integers of any size, and double
precision numbers. The two are told apart even where their values agree.

Main definitions:

* `Number`;
* `Number.readInt`, `Number.readFloat`: the number a text spells;
* `Number.Error`: why a text or a number cannot be converted.
-/

namespace Unproxy

/-- An integer or a double precision number. -/
inductive Number where
  | int (i : Int)
  | float (f : Binary64)
  deriving DecidableEq, Repr

namespace Number

/-- Why a conversion fails. -/
inductive Error where
  /-- The text is no integer in this base. -/
  | notInteger (base : Nat) (spelling : Text)
  /-- The text is no number. -/
  | notFloat (spelling : Text)
  /-- A decimal integer with this many digits is too long to read. -/
  | tooManyDigits (count : Nat)
  /-- The integer lies beyond the greatest double precision number. -/
  | tooLarge
  deriving DecidableEq, Repr

/-- The most digits a decimal integer may have when it is read. -/
def maxDigits : Nat := 4300

/-- The wording of a failed conversion. A misspelt integer is shown with at most
two hundred code points. -/
def Error.message : Error → Text
  | .notInteger base spelling =>
    "invalid literal for int() with base ".toText ++ Text.ofNat base ++ ": ".toText ++
      spelling.quoted.take 200
  | .notFloat spelling => "could not convert string to float: ".toText ++ spelling.quoted
  | .tooManyDigits count =>
    "Exceeds the limit (4300 digits) for integer string conversion: value has ".toText ++
      Text.ofNat count ++ " digits; use sys.set_int_max_str_digits() to increase the limit".toText
  | .tooLarge => "int too large to convert to float".toText

/-- White space around the spelling of a number. -/
def isPadding (c : CodePoint) : Bool :=
  (0x09 ≤ c.val && c.val ≤ 0x0D) || c.val == 0x20 || (!c.isAscii && c.isSpace)

/-- The spelling without white space around it. -/
def trim (t : Text) : Text := Text.dropEndWhile isPadding (t.dropWhile isPadding)

/-- Decimal digits of every script become those of ASCII. -/
def plainDigit (c : CodePoint) : CodePoint :=
  match c.decimalValue? with
  | some value => CodePoint.ofDigit value
  | none => c

/-- A sign and what stands behind it. -/
def splitSign (t : Text) : Bool × Text :=
  match t with
  | c :: rest => if c = '-' then (true, rest) else if c = '+' then (false, rest) else (false, t)
  | [] => (false, [])

/-- The letter that may mark a base behind a zero. -/
def baseMark (base : Nat) : Option Char :=
  if base = 16 then some 'x' else if base = 8 then some 'o' else if base = 2 then some 'b' else none

/-- The digits without the mark of their base. -/
def dropMark (base : Nat) (t : Text) : Text :=
  match t, baseMark base with
  | z :: mark :: rest, some letter =>
    if z = '0' && mark.toLower = CodePoint.ofChar letter then rest else t
  | _, _ => t

/-- Reads an integer. White space, a sign and the mark of the base may stand before
the digits. Only a decimal integer has a limit on its length. -/
def readInt (base : Nat) (spelling : Text) : Except Error Int :=
  let (negative, unsigned) := splitSign ((trim spelling).map plainDigit)
  let digits := dropMark base unsigned
  let count := (digits.takeWhile (CodePoint.isDigitOf base)).length
  if count = 0 then .error (.notInteger base spelling)
  else if base = 10 && maxDigits < count then .error (.tooManyDigits count)
  else if count ≠ digits.length then .error (.notInteger base spelling)
  else .ok (Binary64.signed negative (Text.valueIn base digits))

/-- The exponent at the end of a decimal spelling; `none` if what is left is no
exponent. -/
def readExponent (t : Text) : Option Int :=
  match t with
  | [] => some 0
  | mark :: rest =>
    if mark = 'e' || mark = 'E' then
      let (negative, digits) := splitSign rest
      if digits.isEmpty || !digits.all CodePoint.isDigit then none
      else some (Binary64.signed negative (Text.valueIn 10 digits))
    else none

/-- Reads an unsigned decimal with a fraction and an exponent. -/
def readDecimal (negative : Bool) (t : Text) : Option Binary64 :=
  let whole := t.takeWhile CodePoint.isDigit
  let rest := t.drop whole.length
  let (fraction, rest) :=
    match rest with
    | c :: more =>
      if c = '.' then
        let fraction := more.takeWhile CodePoint.isDigit
        (fraction, more.drop fraction.length)
      else ([], rest)
    | [] => ([], [])
  if whole.isEmpty && fraction.isEmpty then none
  else
    (readExponent rest).map fun exponent =>
      Binary64.ofDecimal negative (Text.valueIn 10 (whole ++ fraction)) (exponent - fraction.length)

/-- Reads a double precision number, or the name of an infinity or of
not-a-number. -/
def readFloat (spelling : Text) : Except Error Binary64 :=
  let (negative, unsigned) := splitSign ((trim spelling).map plainDigit)
  let lower := unsigned.toLower
  if lower = "inf".toText || lower = "infinity".toText then .ok (.infinite negative)
  else if lower = "nan".toText then .ok .nan
  else
    match readDecimal negative unsigned with
    | some f => .ok f
    | none => .error (.notFloat spelling)

/-- The nearest double precision number. -/
def toFloat : Number → Except Error Binary64
  | .float f => .ok f
  | .int i =>
    match Binary64.ofInt? i with
    | some f => .ok f
    | none => .error .tooLarge

/-- Equal values count as the same number, whatever their form. -/
def same : Number → Number → Bool
  | .int i, .int j => i == j
  | .int i, .float f | .float f, .int i => f.integer? == some i
  | .float f, .float g =>
    match f, g with
    | .finite _ m _, .finite _ n _ => f == g || (m == 0 && n == 0)
    | .infinite a, .infinite b => a == b
    | _, _ => false

/-- A number as messages show it. -/
def text : Number → Text
  | .int i => Text.ofInt i
  | .float f => f.text

end Number

end Unproxy
