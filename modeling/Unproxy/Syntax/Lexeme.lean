import Unproxy.Text.Basic

/-!
# Unproxy.Syntax.Lexeme

The spellings of JavaScript: white space, names, numbers, punctuators and
escapes. Every reader takes the text that is left and returns the lexeme it
begins with, so what remains is `List.drop` of the lexeme's length.

Main definitions:

* `isBlank`, `isLineBreak`, `isNameStart`, `isNamePart`: classes of code points;
* `name?`, `number?`, `symbol?`, `escape?`: the longest lexeme of a class.
-/

namespace Unproxy

namespace CodePoint

/-- White space between tokens. -/
def isBlank (c : CodePoint) : Bool :=
  (0x09 ≤ c.val && c.val ≤ 0x0D) || c.val == 0x20 || c.val == 0x85 || c.val == 0xA0 ||
    c.val == 0x1680 || (0x2000 ≤ c.val && c.val ≤ 0x200B) || c.val == 0x2028 || c.val == 0x2029 ||
    c.val == 0x202F || c.val == 0x205F || c.val == 0x2060 || c.val == 0x3000 || c.val == 0xFEFF

/-- A break that may end a statement. A carriage return alone does not. -/
def isLineBreak (c : CodePoint) : Bool := c.val == 0x0A || c.val == 0x2028 || c.val == 0x2029

/-- A code point that ends a comment begun by two slashes. -/
def endsLine (c : CodePoint) : Bool := c.isLineBreak || c.val == 0x0D

/-- ASCII punctuation that no name holds. -/
def isPunctuation (c : CodePoint) : Bool :=
  "!\"#%&'()*+,-./:;<=>?@[\\]^`\x7b|\x7d~".toText.contains c

/-- May stand in a name: everything but controls, white space and punctuation. -/
def isNamePart (c : CodePoint) : Bool :=
  0x20 ≤ c.val && !c.isBlank && !c.isPunctuation

/-- May begin a name. -/
def isNameStart (c : CodePoint) : Bool := c.isNamePart && !c.isDigit

end CodePoint

namespace Syntax.Lexeme

/-- The hexadecimal digits between braces, with the braces, at the head of a text. -/
def bracedHex? : Text → Option Text
  | [] => none
  | c :: rest =>
    let digits := rest.takeWhile CodePoint.isHexDigit
    if c = '\x7b' && !digits.isEmpty && (rest.drop digits.length).head? = some '\x7d' then
      some (c :: digits ++ [CodePoint.ofChar '\x7d'])
    else none

/-- Exactly `n` hexadecimal digits at the head of a text. -/
def hexDigits? (n : Nat) (t : Text) : Option Text :=
  let digits := t.take n
  if digits.length = n && digits.all CodePoint.isHexDigit then some digits else none

/-- A code point written by its number: `\u` and four digits, or digits in braces. -/
def unicodeEscape? : Text → Option Text
  | backslash :: u :: rest =>
    if backslash = '\\' && u = 'u' then
      (bracedHex? rest <|> hexDigits? 4 rest).map fun body => backslash :: u :: body
    else none
  | _ => none

/-- One piece of a name: a code point or its escape. -/
def namePiece? (isAllowed : CodePoint → Bool) (t : Text) : Option Text :=
  match unicodeEscape? t with
  | some piece => some piece
  | none =>
    match t with
    | c :: _ => if isAllowed c then some [c] else none
    | [] => none

/-- The longest run of pieces of a name. The first argument bounds the number of
pieces. -/
def nameRest : Nat → Text → Text
  | 0, _ => []
  | n + 1, t =>
    match namePiece? CodePoint.isNamePart t with
    | some piece => piece ++ nameRest n (t.drop piece.length)
    | none => []

/-- A name or a keyword. -/
def name? (t : Text) : Option Text :=
  (namePiece? CodePoint.isNameStart t).map fun piece =>
    piece ++ nameRest t.length (t.drop piece.length)

/-- Goes on behind a digit: further digits, and underscores that a digit follows. -/
def separatedRest (isAllowed : CodePoint → Bool) : Text → Text
  | [] => []
  | c :: rest =>
    if isAllowed c then c :: separatedRest isAllowed rest
    else if c = '_' && (rest.head?.map isAllowed).getD false then c :: separatedRest isAllowed rest
    else []

/-- Digits with single underscores between them. -/
def separated (isAllowed : CodePoint → Bool) (t : Text) : Text :=
  if (t.head?.map isAllowed).getD false then separatedRest isAllowed t else []

/-- Decimal digits with single underscores between them. -/
def decimals (t : Text) : Text := separated CodePoint.isDigit t

/-- An exponent: the mark, a sign or none, digits. Empty if there is none. -/
def exponent (t : Text) : Text :=
  match t with
  | mark :: rest =>
    if mark = 'e' || mark = 'E' then
      let sign := (rest.take 1).filter fun c => c = CodePoint.ofChar '+' || c = CodePoint.ofChar '-'
      let digits := decimals (rest.drop sign.length)
      if digits.isEmpty then [] else mark :: sign ++ digits
    else []
  | [] => []

/-- An integer part that a point or an exponent may follow: a single zero, or a
number with at most one leading zero that is not followed by a zero. -/
def mayHaveFraction (digits : Text) : Bool :=
  match digits with
  | [] => false
  | [_] => true
  | c :: d :: _ => if c = '0' then d.isDigit && d ≠ '0' else true

/-- The mark of a base behind a zero. -/
def baseOfMark (mark : CodePoint) : Option Nat :=
  if mark = 'x' || mark = 'X' then some 16
  else if mark = 'o' || mark = 'O' then some 8
  else if mark = 'b' || mark = 'B' then some 2
  else none

/-- A number with a base mark, with `n` behind it if it is a big one. -/
def basedNumber? (t : Text) : Option Text :=
  match t with
  | z :: mark :: rest =>
    match baseOfMark mark with
    | some base =>
      let digits := separated (CodePoint.isDigitOf base) rest
      if z = '0' && !digits.isEmpty then
        let big := ((rest.drop digits.length).take 1).filter (· = CodePoint.ofChar 'n')
        some (z :: mark :: digits ++ big)
      else none
    | none => none
  | _ => none

/-- A decimal number: digits with a fraction, an exponent or both, or digits with
`n` behind them, or digits. -/
def decimalNumber? (t : Text) : Option Text :=
  let whole := decimals t
  let rest := t.drop whole.length
  let fraction (behind : Text) : Text :=
    let digits := decimals behind
    digits ++ exponent (behind.drop digits.length)
  match rest with
  | c :: more =>
    if c = '.' && whole.isEmpty then
      if (decimals more).isEmpty then none else some (c :: fraction more)
    else if whole.isEmpty then none
    else if c = '.' && mayHaveFraction whole then some (whole ++ c :: fraction more)
    else if c = 'n' then some (whole ++ [c])
    else if mayHaveFraction whole then some (whole ++ exponent rest)
    else some whole
  | [] => if whole.isEmpty then none else some whole

/-- A number. -/
def number? (t : Text) : Option Text := basedNumber? t <|> decimalNumber? t

/-- The punctuators, longer ones before their beginnings. -/
def symbols : List Text :=
  [">>>=", "...", "===", "!==", "**=", "<<=", ">>=", ">>>", "&&=", "||=", "??=", "=>", "==", "!=",
    "<=", ">=", "&&", "||", "??", "?.", "++", "--", "+=", "-=", "*=", "/=", "%=", "&=", "|=", "^=",
    "<<", ">>", "**", "\x7b", "\x7d", "(", ")", "[", "]", ";", ",", "<", ">", "+", "-", "*", "/",
    "%", "&", "|", "^", "!", "~", "?", ":", "=", "."].map String.toText

/-- The longest punctuator. A question mark and a point are two punctuators
before a digit. -/
def symbol? (t : Text) : Option Text :=
  symbols.find? fun s =>
    s.isPrefixOf t &&
      !(s == "?.".toText && ((t.drop 2).head?.map CodePoint.isDigit).getD false)

/-- An escape inside a string or a template. A line break of two code points is
one escape. -/
def escape? (t : Text) : Option Text :=
  match t with
  | [] => none
  | [_] => none
  | backslash :: c :: rest =>
    if backslash ≠ '\\' then none
    else if c.isOctalDigit then
      some (backslash :: ((c :: rest).take 3).takeWhile CodePoint.isOctalDigit)
    else if c = 'x' then (hexDigits? 2 rest).map fun body => backslash :: c :: body
    else if c = 'u' then unicodeEscape? t
    else
      match rest with
      | d :: _ =>
        if (c = '\r' || c = '?') && d.isLineBreak then some [backslash, c, d] else some [backslash, c]
      | [] => some [backslash, c]

end Syntax.Lexeme

end Unproxy
