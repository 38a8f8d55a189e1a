import Unproxy.Files.Text
import Unproxy.Json.Reader
import Unproxy.Log.Record
import Unproxy.Scheme.Basic

/-!
# Unproxy.Scheme.File

Schemes from files. A file holds schemes by name, or a single one. Without a file
the built-in schemes are used.
-/

namespace Unproxy.Scheme

open Log

/-- Why a scheme cannot be loaded. -/
inductive LoadError where
  | unreadable (path : Path) (error : Files.Error)
  | undecodable (error : Utf8.DecodeError)
  | notJson (path : Path) (error : Json.SyntaxError)
  | number (error : Number.Error)
  | notObject (path : Path)
  | undefined (path : Path) (name : Text)
  | scheme (error : Error)
  deriving Repr

/-- The wording of a failed loading. -/
def LoadError.message : LoadError → Text
  | .unreadable path error =>
    "cannot read schema file ".toText ++ path.toText ++ ": ".toText ++ error.message
  | .undecodable error => error.message
  | .notJson path error =>
    "schema file ".toText ++ path.toText ++ " is not valid JSON: ".toText ++ error.message
  | .number error => error.message
  | .notObject path => "schema file ".toText ++ path.toText ++ " must contain a JSON object".toText
  | .undefined path name =>
    "schema file ".toText ++ path.toText ++ " does not define scheme ".toText ++ name.quoted
  | .scheme error => error.message

/-- A scheme as settings. -/
def toValue (s : Scheme) : Value :=
  .object
    [(.text "root".toText, .text s.root),
      (.text "array_namespace".toText, .text s.arrayNamespace),
      (.text "proxy_namespace".toText, .text s.proxyNamespace),
      (.text "alias_namespace".toText, .text s.aliasNamespace),
      (.text "config_table".toText, .text s.configTable),
      (.text "key_positions".toText,
        .object (s.keyPositions.map fun (table, n) => (.text table, .number (.int n))))]

/-- The built-in schemes by name. -/
def builtIn : Value :=
  .object [(.text "schemes".toText, .object [(.text standardName, standard.toValue)])]

/-- The settings in a file. -/
def readSettings (files : Files) (path : Path) : Except LoadError Value :=
  match files.readRaw path with
  | .error (.file error) => .error (.unreadable path error)
  | .error (.undecodable error) => .error (.undecodable error)
  | .ok t =>
    match Json.read t with
    | .ok value => .ok value
    | .error (.syntaxError error) => .error (.notJson path error)
    | .error (.number error) => .error (.number error)

/-- The name under which loading reports. -/
def loadingSource : Text := "proxydeob.schema".toText

/-- The scheme with a name among settings. -/
def select (path : Path) (name : Text) (settings : Value) : Logged LoadError Scheme :=
  match settings with
  | .object _ =>
    match settings.member? "schemes".toText with
    | none | some .null => do
      Logged.tell .debug loadingSource
        ("schema file ".toText ++ path.toText ++ " holds a single bare scheme".toText)
      Logged.ofExcept ((ofValue name settings).mapError .scheme)
    | some schemes =>
      match schemes.member? name with
      | some data => Logged.ofExcept ((ofValue name data).mapError .scheme)
      | none => Logged.fail (.undefined path name)
  | _ => Logged.fail (.notObject path)

/-- Loads the scheme with a name from a file, or from the built-in ones, which
messages show under the path `home`. -/
def load (files : Files) (home : Path) (path : Option Path) (name : Text) : Logged LoadError Scheme :=
  match path with
  | none => select home name builtIn
  | some path => do
    let settings ← Logged.ofExcept (readSettings files path)
    select path name settings

end Unproxy.Scheme
