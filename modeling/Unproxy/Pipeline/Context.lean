import Unproxy.Alias
import Unproxy.Files.Text
import Unproxy.Report
import Unproxy.Resolution
import Unproxy.Table.Extraction

/-!
# Unproxy.Pipeline.Context

What the passes of a run share, and how a pass ends.

Main definitions:

* `Context`: the state of a run;
* `Pass`, `PassResult`, `PassError`: a pass, what it leaves behind, why it failed.
-/

namespace Unproxy.Pipeline

open Log Syntax

/-- The choices of a run. -/
structure Options where
  /-- Nothing is written. -/
  dryRun : Bool := false
  /-- The output is laid out anew. -/
  beautify : Bool := true
  /-- How a program is laid out. That is left to a formatter outside of the library, of
  which it is only assumed that it has a text for every text, and always the same. -/
  layOut : Text → Text

/-- The state of a run. -/
structure Context where
  inputPath : Path
  outputPath : Option Path
  source : Text
  scheme : Scheme
  program : Option Program
  raw : Table.Raw
  decoded : Table.Decoded
  output : Text
  options : Options
  /-- What each pass noted, by its name. -/
  metadata : Entries Text Value
  report : Report

namespace Context

/-- The state at the start of a run. -/
def start (inputPath : Path) (outputPath : Option Path) (source : Text) (scheme : Scheme)
    (options : Options) : Context where
  inputPath := inputPath
  outputPath := outputPath
  source := source
  scheme := scheme
  program := none
  raw := []
  decoded := []
  output := []
  options := options
  metadata := []
  report := { inputPath := some inputPath.toText, scheme := some scheme.name }

/-- Notes what a pass has to say; what counts as false is noted as nothing. -/
def note (c : Context) (name : Text) (metadata : Value) : Context :=
  { c with
    metadata := Entries.set name (if metadata.isTruthy then metadata else .object []) c.metadata }

end Context

/-- Why a pass fails. -/
inductive PassError where
  /-- There is no program yet. -/
  | noProgram
  | input (error : Files.ReadError)
  | output (error : Files.WriteError)
  | parse (error : ParseError)
  | number (error : Number.Error)
  | access (error : Access.Error)
  | table (error : Table.Error)
  | resolution (error : Resolution.Failure)
  | inlining (error : Alias.Failure)
  /-- The input has no name that the output's could be made from. -/
  | namelessInput (path : Path)
  /-- Some other failure, of the given kind. -/
  | other (kind : Text) (message : Text)

/-- The wording of a failed pass. -/
def PassError.message : PassError → Text
  | .noProgram => []
  | .input error => error.message
  | .output error => error.message
  | .parse error => error.message
  | .number error => error.message
  | .access error => error.message
  | .table error => error.message
  | .resolution error => error.message
  | .inlining error => error.message
  | .namelessInput path =>
    "PosixPath(".toText ++ path.toText.quoted ++ ") has an empty name".toText
  | .other _ message => message

/-- What a pass leaves behind, also when it fails. -/
structure PassResult where
  context : Context
  files : Files
  records : List Record := []
  failure : Option PassError := none

/-- A step of a run. Passes are run in the order of their numbers, then of their
names. -/
structure Pass where
  name : Text
  order : Int
  run : Context → Files → PassResult

end Unproxy.Pipeline
