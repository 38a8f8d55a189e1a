import Unproxy.Files.Text
import Unproxy.Log.Colour

/-!
# Unproxy.Log.Setup

Where records go: to the terminal in colour, and to a file with the time. Nothing
below the general level goes anywhere; beyond that each of the two has a level of
its own.

Main definitions:

* `Setup`: the levels and the open log file;
* `Setup.configure`: a new setup, which replaces the one before;
* `Setup.emit`: writes one record.
-/

namespace Unproxy.Log

/-- Where records go. -/
structure Setup where
  level : Level
  /-- The level from which on records are shown on the terminal. Before the first
  configuration there is none, and warnings are shown plainly. -/
  terminal : Option Level
  /-- The number of the open log file; it takes every record. -/
  file : Option Nat
  deriving DecidableEq, Repr

namespace Setup

/-- The setup before any configuration. -/
def initial : Setup := ⟨.warning, none, none⟩

/-- The levels of the places records go to. -/
def thresholds (s : Setup) : List Level :=
  s.terminal.toList ++ (s.file.map fun _ => Level.debug).toList

/-- Opens a log file; the directories above it are made. The path is shown from the
top in messages. -/
def openFile (files : Files) (path : Path) : Except Files.Error (Nat × Files) := do
  let files ← files.ensurePath path.parts.length path.parent
  files.openEmpty (files.absolute path)

/-- A new setup. -/
def configure (verbose : Bool) (logFile : Option Path) (files : Files) :
    Except Files.Error (Setup × Files) :=
  let terminal : Level := if verbose then .debug else .warning
  match logFile with
  | none => .ok (⟨terminal, some terminal, none⟩, files)
  | some path =>
    (openFile files path).map fun (id, files) => (⟨.debug, some terminal, some id⟩, files)

/-- A record on the terminal. -/
def terminalLine (s : Setup) (r : Record) : Text :=
  match s.terminal with
  | some threshold =>
    if r.level.reaches threshold then
      coloured r.level.colour false (r.level.name ++ ": ".toText ++ r.message) ++ "\n".toText
    else []
  | none => if s.file.isNone && r.level.reaches .warning then r.message ++ "\n".toText else []

/-- The name of the part that sent a record; the nameless one is the root. -/
def sourceName (r : Record) : Text := if r.source.isEmpty then "root".toText else r.source

/-- A record in the log file. -/
def fileLine (now : Text) (r : Record) : Text :=
  Text.join " - ".toText [now, sourceName r, r.level.name, r.message] ++ "\n".toText

/-- Writes one record: the text for the terminal, and the files after it. What the log
file does not take is lost; the complaint about it is left out. -/
def emit (s : Setup) (now : Text) (r : Record) (files : Files) : Text × Files :=
  if r.level.reaches s.level then
    (s.terminalLine r,
      match s.file with
      | some id => (files.append id (Utf8.encode (fileLine now r))).2
      | none => files)
  else ([], files)

end Setup

end Unproxy.Log
