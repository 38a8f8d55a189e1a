import Unproxy.Text.Utf16
import Unproxy.Value.Basic

/-!
# Unproxy.Json.Reader

Reads JSON. Beyond the standard, `NaN`, `Infinity` and `-Infinity` are numbers; a
number with a point or an exponent is a double precision one, any other an
integer. Neighbouring escapes of the two halves of a pair are joined, and other
surrogates stay.

Main definitions:

* `Json.Problem`, `Json.SyntaxError`, `Json.Error`: what went wrong and where;
* `Json.read`: the value of a text.
-/

namespace Unproxy.Json

/-- What is wrong with a text. -/
inductive Problem where
  | value
  | comma
  | colon
  | name
  | openString
  | control
  | escape
  | unicodeEscape
  | extra
  | byteOrderMark
  deriving DecidableEq, Repr

/-- The wording of a problem. -/
def Problem.message : Problem → Text
  | .value => "Expecting value".toText
  | .comma => "Expecting ',' delimiter".toText
  | .colon => "Expecting ':' delimiter".toText
  | .name => "Expecting property name enclosed in double quotes".toText
  | .openString => "Unterminated string starting at".toText
  | .control => "Invalid control character at".toText
  | .escape => "Invalid \\escape".toText
  | .unicodeEscape => "Invalid \\uXXXX escape".toText
  | .extra => "Extra data".toText
  | .byteOrderMark => "Unexpected UTF-8 BOM (decode using utf-8-sig)".toText

/-- A problem at a position of a text. Lines and columns count from one and lines
end at line feeds. -/
structure SyntaxError where
  problem : Problem
  position : Nat
  line : Nat
  column : Nat
  deriving DecidableEq, Repr

/-- The wording of a problem with its place. -/
def SyntaxError.message (e : SyntaxError) : Text :=
  e.problem.message ++ ": line ".toText ++ Text.ofNat e.line ++ " column ".toText ++
    Text.ofNat e.column ++ " (char ".toText ++ Text.ofNat e.position ++ ")".toText

/-- Why a text cannot be read. -/
inductive Error where
  | syntaxError (e : SyntaxError)
  /-- An integer is too long. -/
  | number (e : Number.Error)
  deriving DecidableEq, Repr

/-- A failure while reading, before its line is known. -/
inductive Fault where
  | at (problem : Problem) (position : Nat)
  | number (e : Number.Error)
  deriving DecidableEq, Repr

/-- What is left of a text and how much of it is read. -/
structure Place where
  rest : Text
  position : Nat
  deriving Repr

namespace Place

/-- The place some code points further on. -/
def skip (p : Place) (n : Nat) : Place := ⟨p.rest.drop n, p.position + n⟩

/-- White space between tokens. -/
def isBlank (c : CodePoint) : Bool := c.val == 0x20 || c.val == 0x09 || c.val == 0x0A || c.val == 0x0D

/-- The place behind white space. -/
def blank (p : Place) : Place := p.skip (p.rest.takeWhile isBlank).length

/-- Whether a character comes next. -/
def at? (p : Place) (c : Char) : Bool := p.rest.head? == some (CodePoint.ofChar c)

/-- The failure at a place. -/
def fault {α : Type} (p : Place) (problem : Problem) : Except Fault α := .error (.at problem p.position)

end Place

/-! ### Strings -/

/-- The code point that a letter behind a backslash stands for. -/
def simpleEscape? (c : CodePoint) : Option CodePoint :=
  if c = '"' || c = '\\' || c = '/' then some c
  else if c = 'b' then some (CodePoint.ofNat 0x08)
  else if c = 'f' then some (CodePoint.ofNat 0x0C)
  else if c = 'n' then some (CodePoint.ofNat 0x0A)
  else if c = 'r' then some (CodePoint.ofNat 0x0D)
  else if c = 't' then some (CodePoint.ofNat 0x09)
  else none

/-- The number of four hexadecimal digits at the head of a text. -/
def fourHex? (t : Text) : Option Nat :=
  let digits := t.take 4
  if digits.length = 4 && digits.all CodePoint.isHexDigit then some (Text.valueIn 16 digits) else none

/-- The low half of a pair at the head of a text, if the whole of an escape stands
there and the text goes on behind it. An escape with wrong digits is a failure. -/
def lowHalf? (t : Text) (position : Nat) : Except Fault (Option Nat) :=
  match t with
  | backslash :: u :: rest =>
    if backslash = '\\' && u = 'u' && 4 < rest.length then
      match fourHex? rest with
      | some unit => .ok (if Utf16.isLow unit then some unit else none)
      | none => .error (.at .unicodeEscape (position + 1))
    else .ok none
  | _ => .ok none

/-- Reads the inside of a string with its closing quote. The first argument bounds
the number of code points, `start` is the place of the opening quote, and the
result so far is reversed. -/
def readStringRest (start : Nat) : Nat → Place → Text → Except Fault (Text × Place)
  | 0, _, _ => .error (.at .openString start)
  | n + 1, p, reversed =>
    match p.rest with
    | [] => .error (.at .openString start)
    | c :: rest =>
      if c = '"' then .ok (reversed.reverse, p.skip 1)
      else if c = '\\' then
        match rest with
        | [] => .error (.at .openString start)
        | d :: digits =>
          if d = 'u' then
            match fourHex? digits with
            | some unit =>
              if digits.length ≤ 4 then .error (.at .unicodeEscape (p.position + 1))
              else if Utf16.isHigh unit then
                match lowHalf? (digits.drop 4) (p.position + 6) with
                | .error fault => .error fault
                | .ok (some low) => readStringRest start n (p.skip 12) (Utf16.pair unit low :: reversed)
                | .ok none => readStringRest start n (p.skip 6) (CodePoint.ofNat unit :: reversed)
              else readStringRest start n (p.skip 6) (CodePoint.ofNat unit :: reversed)
            | none => .error (.at .unicodeEscape (p.position + 1))
          else
            match simpleEscape? d with
            | some e => readStringRest start n (p.skip 2) (e :: reversed)
            | none => .error (.at .escape p.position)
      else if c.val < 0x20 then p.fault .control
      else readStringRest start n (p.skip 1) (c :: reversed)

/-- Reads a string from its opening quote on. -/
def readString (p : Place) : Except Fault (Text × Place) :=
  readStringRest p.position p.rest.length (p.skip 1) []

/-! ### Numbers -/

/-- The fraction at the head of a text: a point and digits, or nothing. -/
def fraction (t : Text) : Text :=
  match t with
  | c :: rest =>
    let digits := rest.takeWhile CodePoint.isDigit
    if c = '.' && !digits.isEmpty then c :: digits else []
  | [] => []

/-- The exponent at the head of a text: its mark, a sign or none, and digits, or
nothing. -/
def exponent (t : Text) : Text :=
  match t with
  | mark :: rest =>
    let sign := (rest.take 1).filter fun c => c = CodePoint.ofChar '-' || c = CodePoint.ofChar '+'
    let digits := (rest.drop sign.length).takeWhile CodePoint.isDigit
    if (mark = 'e' || mark = 'E') && !digits.isEmpty then mark :: sign ++ digits else []
  | [] => []

/-- The integer part at the head of a text: a single zero, or digits that do not
begin with one. -/
def integerPart (t : Text) : Text :=
  match t with
  | c :: rest => if c = '0' then [c] else if c.isDigit then c :: rest.takeWhile CodePoint.isDigit else []
  | [] => []

/-- Reads a number. -/
def readNumber (p : Place) : Except Fault (Value × Place) :=
  let sign := (p.rest.take 1).filter (· = CodePoint.ofChar '-')
  let unsigned := p.rest.drop sign.length
  let whole := integerPart unsigned
  if whole.isEmpty then p.fault .value
  else
    let behind := unsigned.drop whole.length
    let tail := fraction behind
    let tail := tail ++ exponent (behind.drop tail.length)
    let spelling := sign ++ whole ++ tail
    let read : Except Number.Error Number :=
      if tail.isEmpty then (Number.readInt 10 spelling).map .int
      else (Number.readFloat spelling).map .float
    match read with
    | .ok n => .ok (.number n, p.skip spelling.length)
    | .error e => .error (.number e)

/-! ### Values -/

/-- The words that stand for values. -/
def words : List (Text × Value) :=
  [("null".toText, .null), ("true".toText, .bool true), ("false".toText, .bool false),
    ("NaN".toText, .number (.float .nan)), ("Infinity".toText, .number (.float (.infinite false))),
    ("-Infinity".toText, .number (.float (.infinite true)))]

/-- Reads a word or a number. -/
def readScalar (p : Place) : Except Fault (Value × Place) :=
  match words.find? fun (word, _) => word.isPrefixOf p.rest with
  | some (word, value) => .ok (value, p.skip word.length)
  | none => readNumber p

mutual

/-- Reads a value. The first argument bounds the nesting. -/
def readValue : Nat → Place → Except Fault (Value × Place)
  | 0, p => p.fault .value
  | n + 1, p =>
    if p.at? '"' then (readString p).map fun (t, p) => (.text t, p)
    else if p.at? '[' then
      let p := (p.skip 1).blank
      if p.at? ']' then .ok (.array [], p.skip 1)
      else (readItems n p).map fun (items, p) => (.array items, p)
    else if p.at? '\x7b' then
      let p := (p.skip 1).blank
      if p.at? '\x7d' then .ok (.object [], p.skip 1)
      else (readMembers n p).map fun (members, p) => (Value.ofPairs members, p)
    else readScalar p

/-- Reads the items of an array with its closing bracket. -/
def readItems : Nat → Place → Except Fault (List Value × Place)
  | 0, p => p.fault .value
  | n + 1, p =>
    match readValue n p with
    | .error fault => .error fault
    | .ok (item, p) =>
      let p := p.blank
      if p.at? ']' then .ok ([item], p.skip 1)
      else if p.at? ',' then (readItems n (p.skip 1).blank).map fun (items, p) => (item :: items, p)
      else p.fault .comma

/-- Reads the members of an object with its closing brace. -/
def readMembers : Nat → Place → Except Fault (List (Key × Value) × Place)
  | 0, p => p.fault .value
  | n + 1, p =>
    if !p.at? '"' then p.fault .name
    else
      match readString p with
      | .error fault => .error fault
      | .ok (name, p) =>
        let p := p.blank
        if !p.at? ':' then p.fault .colon
        else
          match readValue n (p.skip 1).blank with
          | .error fault => .error fault
          | .ok (value, p) =>
            let p := p.blank
            if p.at? '\x7d' then .ok ([(.text name, value)], p.skip 1)
            else if p.at? ',' then
              (readMembers n (p.skip 1).blank).map fun (members, p) => ((.text name, value) :: members, p)
            else p.fault .comma

end

/-- Reads the whole of a text. -/
def readAll (t : Text) : Except Fault Value :=
  if t.head? = some (CodePoint.ofNat 0xFEFF) then .error (.at .byteOrderMark 0)
  else
    match readValue (2 * t.length + 2) (Place.blank ⟨t, 0⟩) with
    | .error fault => .error fault
    | .ok (value, p) =>
      let p := p.blank
      if p.rest.isEmpty then .ok value else p.fault .extra

/-- A problem with its line and column. -/
def locate (t : Text) (problem : Problem) (position : Nat) : SyntaxError :=
  let before := t.take position
  let column := (before.reverse.takeWhile (· ≠ CodePoint.ofChar '\n')).length + 1
  ⟨problem, position, before.count (CodePoint.ofChar '\n') + 1, column⟩

/-- The value of a text. -/
def read (t : Text) : Except Error Value :=
  match readAll t with
  | .ok value => .ok value
  | .error (.at problem position) => .error (.syntaxError (locate t problem position))
  | .error (.number e) => .error (.number e)

end Unproxy.Json
