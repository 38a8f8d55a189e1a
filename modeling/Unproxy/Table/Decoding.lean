import Unproxy.Json.Reader
import Unproxy.Log.Record
import Unproxy.Scheme.Basic
import Unproxy.Table.Code

/-!
# Unproxy.Table.Decoding

From raw tables to values. The config table spells JSON as it is and holds the
keys; every other table spells JSON under the cipher with its own key.

Main definitions:

* `Table.Error`: why a table cannot be decoded;
* `Table.keyBytes`, `Table.decodeConfig`, `Table.decode`, `Table.key`: the steps;
* `Table.decodeAll`: the tables of a program.
-/

namespace Unproxy.Table

open Log

/-- Why a table cannot be decoded. -/
inductive Error where
  /-- The key's length is no length of a base64 text. -/
  | keyLength (key : Text)
  | badKey (key : Text) (error : Base64.Error)
  | notJson (label : Text) (error : Json.SyntaxError)
  /-- A code or a number in the table is beyond what can be read. -/
  | number (error : Number.Error)
  | configNotArray
  | noKey (label : Text) (position : Int) (length : Nat)
  | keyNotText (position : Int) (label : Text) (entry : Value)
  /-- A position counted from the end lies before the start. -/
  | positionOutOfRange
  | configMissing (config table : Text)
  /-- The table is none that the scheme has a key position for. -/
  | unknownTable (table : Text)
  deriving Repr

/-- The wording of a failed decoding. -/
def Error.message : Error → Text
  | .keyLength key => "invalid base64 key length: ".toText ++ key.quoted
  | .badKey key error => "invalid base64 key ".toText ++ key.quoted ++ ": ".toText ++ error.message
  | .notJson label error =>
    "table ".toText ++ label ++ " did not decode to JSON: ".toText ++ error.message
  | .number error => error.message
  | .configNotArray => "config table did not decode to a JSON array".toText
  | .noKey label position length =>
    "config table has no key for ".toText ++ label ++ " at index ".toText ++ Text.ofInt position ++
      " (length ".toText ++ Text.ofNat length ++ ")".toText
  | .keyNotText position label entry =>
    "config entry ".toText ++ Text.ofInt position ++ " for ".toText ++ label ++
      " is not a string: ".toText ++ entry.display
  | .positionOutOfRange => "list index out of range".toText
  | .configMissing config table =>
    "config table ".toText ++ config.quoted ++ " not found; cannot decode ".toText ++ table.quoted
  | .unknownTable table => table.quoted

/-- White space that a key may hold anywhere. -/
def isKeyBlank (c : CodePoint) : Bool :=
  c.val == 0x09 || c.val == 0x0A || c.val == 0x0C || c.val == 0x0D || c.val == 0x20

/-- The padding that brings a text to a multiple of four. -/
def padding (length : Nat) : Text := List.replicate ((4 - length % 4) % 4) (CodePoint.ofChar '=')

/-- The bytes of a key. White space does not count and padding may be missing. -/
def keyBytes (key : Text) : Except Error Bytes :=
  let cleaned := key.filter fun c => !isKeyBlank c
  if cleaned.length % 4 = 1 then .error (.keyLength key)
  else
    match Base64.decode (cleaned ++ padding cleaned.length) with
    | .ok bytes => .ok bytes
    | .error error => .error (.badKey key error)

/-- The JSON value a text spells. -/
def readJson (label t : Text) : Except Error Value :=
  match Json.read t with
  | .ok value => .ok value
  | .error (.syntaxError error) => .error (.notJson label error)
  | .error (.number error) => .error (.number error)

/-- The value of the config table. -/
def decodeConfig (label : Text) (codes : List Code) : Except Error Value :=
  match Code.text codes with
  | .ok t => readJson label t
  | .error error => .error (.number error)

/-- The name under which decoding reports. -/
def decodingSource : Text := "proxydeob.decoders.xor_table".toText

/-- The value of an encoded table under a key. -/
def decode (label key : Text) (codes : List Code) : Logged Error Value := do
  let bytes ← Logged.ofExcept (keyBytes key)
  let units ← Logged.ofExcept ((Code.units codes).mapError .number)
  let plain := Cipher.apply units bytes
  Logged.tell .debug decodingSource
    ("decoded ".toText ++ Text.ofNat plain.length ++ " codes of table ".toText ++ label ++
      " with a ".toText ++ Text.ofNat bytes.length ++ " byte key".toText)
  Logged.ofExcept (readJson label (Utf16.decode plain))

/-- The entry of the config table at a position; a negative one counts from the
end. -/
def entryAt? (entries : List Value) (position : Int) : Option Value :=
  if 0 ≤ position then entries[position.toNat]?
  else if (-position).toNat ≤ entries.length then entries[entries.length - (-position).toNat]?
  else none

/-- The key for a table. -/
def key (config : Value) (position : Int) (label : Text) : Except Error Text :=
  match config with
  | .array entries =>
    if (entries.length : Int) ≤ position then .error (.noKey label position entries.length)
    else
      match entryAt? entries position with
      | some (.text t) => .ok t
      | some entry => .error (.keyNotText position label entry)
      | none => .error .positionOutOfRange
  | _ => .error .configNotArray

/-- Raw tables by name. -/
abbrev Raw := Entries Text (List Code)

/-- Decoded tables by name. -/
abbrev Decoded := Entries Text Value

/-- The name under which the choice of tables reports. -/
def selectionSource : Text := "proxydeob.passes.decode_tables".toText

/-- The config table's value, unless it is known already. -/
def configFor (raw : Raw) (scheme : Scheme) (table : Text) : Option Value → Except Error Value
  | some config => .ok config
  | none =>
    match raw.get? scheme.configTable with
    | some codes => decodeConfig scheme.configTable codes
    | none => .error (.configMissing scheme.configTable table)

/-- Decodes the wanted tables one after the other. The config table is decoded when
it is first needed, and its value is kept. Only an array gives keys, so a config of
`null` makes the first table fail and is never kept: it need not be told from one that is
not known yet. A table without a raw form is reported and passed over. -/
def decodeEach (raw : Raw) (scheme : Scheme) :
    List Text → Option Value → Decoded → Logged Error Decoded
  | [], _, found => pure found
  | table :: wanted, config, found =>
    match raw.get? table with
    | none => do
      Logged.tell .warning selectionSource
        ("table ".toText ++ table ++ " is referenced but was not extracted".toText)
      decodeEach raw scheme wanted config found
    | some codes => do
      let config ← Logged.ofExcept (configFor raw scheme table config)
      match scheme.keyPositions.get? table with
      | none => Logged.fail (.unknownTable table)
      | some position => do
        let key ← Logged.ofExcept (key config position table)
        let value ← decode table key codes
        decodeEach raw scheme wanted (some config) (Entries.set table value found)

/-- Decodes the wanted tables, or every encoded one that is there. -/
def decodeAll (raw : Raw) (scheme : Scheme) (wanted : Option (List Text)) : Logged Error Decoded :=
  decodeEach raw scheme (wanted.getD (scheme.encodedTables.filter raw.has)) none []

end Unproxy.Table
