import Unproxy.Value.Basic

/-!
# Unproxy.Scheme.Basic

The names one variant of the obfuscator uses. Nothing else in the library spells
a name out: every matcher asks the scheme.

Main definitions:

* `Scheme`: the names, and where the key of each encoded table lies;
* `Scheme.standard`: the names seen most often;
* `Scheme.ofValue`: a scheme from settings, checked.
-/

namespace Unproxy

/-- The names of one variant. -/
structure Scheme where
  /-- The variable that holds all namespaces. -/
  root : Text
  /-- The namespace whose members return the raw tables. -/
  arrayNamespace : Text
  /-- The namespace through which table entries are read. -/
  proxyNamespace : Text
  /-- The namespace of aliased expressions. -/
  aliasNamespace : Text
  /-- The table that holds the keys of the others. -/
  configTable : Text
  /-- Where in the config table the key of each encoded table lies. -/
  keyPositions : Entries Text Nat
  name : Text
  deriving DecidableEq, Repr

namespace Scheme

/-- The tables that need a key. -/
def encodedTables (s : Scheme) : List Text := s.keyPositions.keys

/-- All tables, the config table first. -/
def tableIds (s : Scheme) : List Text := s.configTable :: s.encodedTables

/-- The name of the scheme used if none is asked for. -/
def standardName : Text := "default".toText

/-- The names seen most often. -/
def standard : Scheme where
  root := "a".toText
  arrayNamespace := "i".toText
  proxyNamespace := "H".toText
  aliasNamespace := "G".toText
  configTable := "t".toText
  keyPositions :=
    [("uB".toText, 0), ("I".toText, 2), ("z".toText, 4), ("u".toText, 6), ("l".toText, 8)]
  name := standardName

/-- Why settings are no scheme. -/
inductive Flaw where
  | notObject
  | missingName (key : Text)
  | noKeyPositions
  | badPosition (table : Key) (position : Value)
  | configEncoded
  deriving Repr

/-- A flaw of the scheme with a name. -/
structure Error where
  name : Text
  flaw : Flaw
  deriving Repr

/-- The wording of a flaw. -/
def Error.message (e : Error) : Text :=
  let head := "scheme ".toText ++ e.name.quoted
  match e.flaw with
  | .notObject => head ++ " must be a JSON object".toText
  | .missingName key => head ++ " is missing a name for ".toText ++ key.quoted
  | .noKeyPositions => head ++ " must define key_positions".toText
  | .badPosition table position =>
    head ++ " has an invalid key position for ".toText ++ table.display ++ ": ".toText ++
      position.display
  | .configEncoded => head ++ " lists the config table as an encoded table".toText

/-- A required name: a text that is not empty. -/
def requiredName (data : Value) (key : String) : Except Flaw Text :=
  match data.member? key.toText with
  | some (.text t) => if t.isEmpty then .error (.missingName key.toText) else .ok t
  | _ => .error (.missingName key.toText)

/-- The positions of the keys: integers that are not negative. Tables whose keys
agree as texts are one table. -/
def positions : List (Key × Value) → Entries Text Nat → Except Flaw (Entries Text Nat)
  | [], found => .ok found
  | (table, position) :: rest, found =>
    match position with
    | .number (.int i) =>
      if i < 0 then .error (.badPosition table position)
      else positions rest (Entries.set table.toText i.toNat found)
    | _ => .error (.badPosition table position)

/-- The scheme that settings describe, or the first flaw in them. -/
def check (name : Text) (data : Value) : Except Flaw Scheme :=
  match data with
  | .object _ => do
    let root ← requiredName data "root"
    let arrayNamespace ← requiredName data "array_namespace"
    let proxyNamespace ← requiredName data "proxy_namespace"
    let aliasNamespace ← requiredName data "alias_namespace"
    let configTable ← requiredName data "config_table"
    match data.member? "key_positions".toText with
    | some (.object members) =>
      if members.isEmpty then throw .noKeyPositions
      let keyPositions ← positions members []
      if keyPositions.has configTable then throw .configEncoded
      return { root, arrayNamespace, proxyNamespace, aliasNamespace, configTable, keyPositions, name }
    | _ => throw .noKeyPositions
  | _ => .error .notObject

/-- The scheme that settings describe. -/
def ofValue (name : Text) (data : Value) : Except Error Scheme :=
  match check name data with
  | .ok scheme => .ok scheme
  | .error flaw => .error ⟨name, flaw⟩

end Scheme

end Unproxy
