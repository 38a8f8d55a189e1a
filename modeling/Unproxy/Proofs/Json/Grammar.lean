import Mathlib
import Unproxy.Json.Reader
import Unproxy.Proofs.Number.Reading
import Unproxy.Proofs.Text.Units

/-!
# Unproxy.Proofs.Json.Grammar

The grammar of JSON texts with integer numbers, as relations between a value and
its spellings. White space may stand wherever the standard allows it, and a string
may escape what it need not escape.

Main definitions:

* `Json.StringBody`: what may stand between the quotes of a string;
* `Json.IntegerSpelling`: an integer, its sign and its digits;
* `Json.Spelled`: values, and the rows of items and members inside brackets.
-/

namespace Unproxy.Json

/-! ### Strings -/

/-- Four hexadecimal digits and the unit they stand for. -/
structure FourHex (unit : Nat) (digits : Text) : Prop where
  length : digits.length = 4
  isHex : digits.all CodePoint.isHexDigit = true
  value : Text.valueIn 16 digits = unit

/-- The escape with the given digits before the rest of a spelling. -/
def unitEscape (digits rest : Text) : Text := '\\' :: 'u' :: (digits ++ rest)

/-- A spelling that begins with the escape of the second half of a pair. -/
def BeginsLow (spelling : Text) : Prop :=
  ∃ unit digits rest, FourHex unit digits ∧ Utf16.isLow unit = true ∧
    spelling = unitEscape digits rest

/-- A text and what stands for it between quotes. The escapes of the two halves of
a pair stand for one code point, so a high half that stands for itself is not
followed by the escape of a low one. -/
inductive StringBody : Text → Text → Prop where
  | nil : StringBody [] []
  | plain {c : CodePoint} {value spelling : Text} (control : 0x20 ≤ c.val)
      (quote : c ≠ CodePoint.ofChar '"') (backslash : c ≠ CodePoint.ofChar '\\')
      (rest : StringBody value spelling) : StringBody (c :: value) (c :: spelling)
  | letter {d c : CodePoint} {value spelling : Text} (escape : simpleEscape? d = some c)
      (rest : StringBody value spelling) : StringBody (c :: value) ('\\' :: d :: spelling)
  | unit {unit : Nat} {digits value spelling : Text} (escape : FourHex unit digits)
      (lone : Utf16.isHigh unit = true → ¬BeginsLow spelling) (rest : StringBody value spelling) :
      StringBody (CodePoint.ofNat unit :: value) (unitEscape digits spelling)
  | pair {high low : Nat} {digits digits' value spelling : Text} (first : FourHex high digits)
      (second : FourHex low digits') (isHigh : Utf16.isHigh high = true)
      (isLow : Utf16.isLow low = true) (rest : StringBody value spelling) :
      StringBody (Utf16.pair high low :: value) (unitEscape digits (unitEscape digits' spelling))

/-- A text in quotes. -/
def quoted (spelling : Text) : Text := '"' :: (spelling ++ [CodePoint.ofChar '"'])

/-! ### Numbers -/

/-- An integer: a sign or none, and digits of which the first is zero only if it is
the only one. There are no more digits than can be read. -/
inductive IntegerSpelling : Int → Text → Prop where
  | digits (negative : Bool) {digits : Text} (nonempty : digits ≠ [])
      (isDigits : digits.all CodePoint.isDigit = true)
      (zero : digits.head? = some (CodePoint.ofChar '0') → digits.length = 1)
      (short : digits.length ≤ Number.maxDigits) :
      IntegerSpelling (Binary64.signed negative (Text.valueIn 10 digits))
        (Binary64.withSign negative digits)

/-! ### Values -/

/-- White space between tokens. -/
def Blank (t : Text) : Prop := t.all Place.isBlank = true

/-- What the rules of the grammar are about. -/
inductive Phrase where
  /-- A value by itself. -/
  | value (v : Value)
  /-- A value with white space around it. -/
  | item (v : Value)
  /-- The inside of an array that is not empty. -/
  | items (vs : List Value)
  /-- A name and its value with white space around them. -/
  | member (name : Text) (v : Value)
  /-- The inside of an object that is not empty. -/
  | members (ms : List (Key × Value))

/-- How a phrase may be spelled. -/
inductive Spelled : Phrase → Text → Prop where
  | null : Spelled (.value .null) "null".toText
  | true : Spelled (.value (.bool true)) "true".toText
  | false : Spelled (.value (.bool false)) "false".toText
  | integer {i : Int} {s : Text} (spelling : IntegerSpelling i s) :
      Spelled (.value (.number (.int i))) s
  | string {t s : Text} (body : StringBody t s) : Spelled (.value (.text t)) (quoted s)
  | emptyArray {b : Text} (blank : Blank b) :
      Spelled (.value (.array [])) ('[' :: (b ++ [CodePoint.ofChar ']']))
  | array {vs : List Value} {s : Text} (items : Spelled (.items vs) s) :
      Spelled (.value (.array vs)) ('[' :: (s ++ [CodePoint.ofChar ']']))
  | emptyObject {b : Text} (blank : Blank b) :
      Spelled (.value (.object [])) ('\x7b' :: (b ++ [CodePoint.ofChar '\x7d']))
  | object {ms : List (Key × Value)} {s : Text} (members : Spelled (.members ms) s) :
      Spelled (.value (Value.ofPairs ms)) ('\x7b' :: (s ++ [CodePoint.ofChar '\x7d']))
  | item {v : Value} {b s b' : Text} (before : Blank b) (value : Spelled (.value v) s)
      (behind : Blank b') : Spelled (.item v) (b ++ (s ++ b'))
  | lastItem {v : Value} {s : Text} (item : Spelled (.item v) s) : Spelled (.items [v]) s
  | items {v : Value} {vs : List Value} {s s' : Text} (item : Spelled (.item v) s)
      (others : Spelled (.items vs) s') :
      Spelled (.items (v :: vs)) (s ++ CodePoint.ofChar ',' :: s')
  | member {name : Text} {v : Value} {b n b' s : Text} (before : Blank b)
      (body : StringBody name n) (behind : Blank b') (item : Spelled (.item v) s) :
      Spelled (.member name v) (b ++ (quoted n ++ (b' ++ CodePoint.ofChar ':' :: s)))
  | lastMember {name : Text} {v : Value} {s : Text} (member : Spelled (.member name v) s) :
      Spelled (.members [(.text name, v)]) s
  | members {name : Text} {v : Value} {ms : List (Key × Value)} {s s' : Text}
      (member : Spelled (.member name v) s) (others : Spelled (.members ms) s') :
      Spelled (.members ((.text name, v) :: ms)) (s ++ CodePoint.ofChar ',' :: s')

end Unproxy.Json
