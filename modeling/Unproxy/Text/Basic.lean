/-!
# Unproxy.Text.Basic

Text is a list of code points. Programs, names, messages and decoded table
entries all use this one type, because a decoded string may hold lone or even
unjoined surrogates, which `String` cannot.

Main definitions:

* `CodePoint`, `Text`: the types;
* `String.toText`: the text of a string literal;
* classes of ASCII code points (`CodePoint.isDigit`, …) and `CodePoint.digitValue?`,
  the value of a digit in bases up to 36;
* `Text.ofNat`, `Text.ofInt`, `Text.hex`: numerals;
* `Text.decimal`, `Text.ofDigits`: the number a row of digit values stands for.
-/

namespace Unproxy

/-- A Unicode code point, surrogates included. -/
abbrev CodePoint := Fin 0x110000

/-- A sequence of code points. -/
abbrev Text := List CodePoint

namespace CodePoint

/-- The code point with a number; beyond the last one the count starts again. -/
def ofNat (n : Nat) : CodePoint := ⟨n % 0x110000, Nat.mod_lt n (by decide)⟩

/-- The code point of a character. -/
def ofChar (c : Char) : CodePoint := ofNat c.toNat

instance : Coe Char CodePoint := ⟨ofChar⟩

/-- The first half of a UTF-16 pair. -/
def isHighSurrogate (c : CodePoint) : Bool := 0xD800 ≤ c.val && c.val < 0xDC00

/-- The second half of a UTF-16 pair. -/
def isLowSurrogate (c : CodePoint) : Bool := 0xDC00 ≤ c.val && c.val < 0xE000

/-- A code point that no well-formed text holds. -/
def isSurrogate (c : CodePoint) : Bool := 0xD800 ≤ c.val && c.val < 0xE000

/-- One of the 128 code points of ASCII. -/
def isAscii (c : CodePoint) : Bool := c.val < 0x80

/-- `0` to `9`. -/
def isDigit (c : CodePoint) : Bool := 0x30 ≤ c.val && c.val ≤ 0x39

/-- `0` to `7`. -/
def isOctalDigit (c : CodePoint) : Bool := 0x30 ≤ c.val && c.val ≤ 0x37

/-- `a` to `z`. -/
def isLower (c : CodePoint) : Bool := 0x61 ≤ c.val && c.val ≤ 0x7A

/-- `A` to `Z`. -/
def isUpper (c : CodePoint) : Bool := 0x41 ≤ c.val && c.val ≤ 0x5A

/-- A letter of ASCII. -/
def isLetter (c : CodePoint) : Bool := c.isLower || c.isUpper

/-- The lower-case form of an ASCII letter; every other code point stays. -/
def toLower (c : CodePoint) : CodePoint := if c.isUpper then ofNat (c.val + 32) else c

/-- The value of a digit in bases up to 36: `0`–`9`, then letters of either case. -/
def digitValue? (c : CodePoint) : Option Nat :=
  if c.isDigit then some (c.val - 0x30)
  else if c.isLower then some (c.val - 0x61 + 10)
  else if c.isUpper then some (c.val - 0x41 + 10)
  else none

/-- A digit of the given base. -/
def isDigitOf (base : Nat) (c : CodePoint) : Bool :=
  match c.digitValue? with
  | some v => v < base
  | none => false

/-- `0`–`9`, `a`–`f`, `A`–`F`. -/
def isHexDigit (c : CodePoint) : Bool := c.isDigitOf 16

/-- The digit with the given value, lower case. -/
def ofDigit (value : Nat) : CodePoint :=
  if value < 10 then ofNat (0x30 + value) else ofNat (0x61 + (value - 10))

end CodePoint

end Unproxy

/-- The text of a string, code point by code point. -/
def String.toText (s : String) : Unproxy.Text := s.toList.map Unproxy.CodePoint.ofChar

namespace Unproxy.Text

/-- The number that digit values stand for in a base, the first digit being the
most significant. -/
def ofDigits (base : Nat) (digits : List Nat) : Nat :=
  digits.foldl (fun total d => total * base + d) 0

/-- The number a row of digits stands for; what is no digit counts zero. -/
def valueIn (base : Nat) (t : Text) : Nat :=
  ofDigits base (t.map fun c => c.digitValue?.getD 0)

/-- Decimal digits of a natural number, most significant first, at least one. -/
def ofNat (n : Nat) : Text := (Nat.toDigits 10 n).map CodePoint.ofChar

/-- Decimal digits of an integer after its sign. -/
def ofInt : Int → Text
  | .ofNat n => ofNat n
  | .negSucc n => CodePoint.ofChar '-' :: ofNat (n + 1)

/-- Lower-case hexadecimal digits, filled with zeros up to a width. -/
def hex (width n : Nat) : Text :=
  let digits := (Nat.toDigits 16 n).map CodePoint.ofChar
  List.replicate (width - digits.length) (CodePoint.ofChar '0') ++ digits

/-- Texts joined with a separator between neighbours. -/
def join (separator : Text) (parts : List Text) : Text := List.intercalate separator parts

/-- Fills with blanks on the right up to a width. -/
def padRight (width : Nat) (t : Text) : Text :=
  t ++ List.replicate (width - t.length) (CodePoint.ofChar ' ')

/-- What follows `start` in `t`, if `t` begins with it. -/
def after? (start t : Text) : Option Text :=
  match start, t with
  | [], t => some t
  | _ :: _, [] => none
  | s :: start, c :: t => if s = c then after? start t else none

/-- Lower-case form, ASCII letters only. -/
def toLower (t : Text) : Text := t.map CodePoint.toLower

/-- Order by code points, the shorter first where one begins the other. -/
def le : Text → Text → Bool
  | [], _ => true
  | _ :: _, [] => false
  | a :: s, b :: t => if a = b then le s t else a.val < b.val

/-- Sorted by code points. -/
def sort (ts : List Text) : List Text := ts.mergeSort le

/-- Line breaks of either width become one line feed. -/
def joinLineBreaks : Text → Text
  | [] => []
  | c :: rest =>
    if c = CodePoint.ofChar '\r' then
      match rest with
      | d :: more =>
        if d = CodePoint.ofChar '\n' then d :: joinLineBreaks more
        else CodePoint.ofChar '\n' :: joinLineBreaks (d :: more)
      | [] => [CodePoint.ofChar '\n']
    else c :: joinLineBreaks rest

end Unproxy.Text
