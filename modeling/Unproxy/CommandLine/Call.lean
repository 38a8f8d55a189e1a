import Unproxy.CommandLine.Arguments
import Unproxy.CommandLine.Options
import Unproxy.Json.Writer
import Unproxy.Pipeline.Registry
import Unproxy.Scheme.File
import Unproxy.Value.Plain

/-!
# Unproxy.CommandLine.Call

A call of the program, from its arguments and environment to what it prints and
writes.

Main definitions:

* `Surroundings`: what a call is given;
* `Ending`, `Outcome`: how it ends and what it leaves behind;
* `call`: the call.
-/

namespace Unproxy.CommandLine

open Log Pipeline

/-- What a call is given. -/
structure Surroundings where
  arguments : List Text
  environment : Environment
  files : Files
  /-- Under this path messages show the built-in schemes. -/
  home : Path
  /-- How the output is laid out. -/
  layOut : Text → Text

/-- A failure that ends a call early. -/
inductive Abort where
  | logFile (error : Files.Error)
  | scheme (error : Scheme.LoadError)
  | report (error : Files.WriteError)
  | run (error : RunError)

/-- The wording of an early end. -/
def Abort.message : Abort → Text
  | .logFile error => error.message
  | .scheme error => error.message
  | .report error => error.message
  | .run error => error.message

/-- How a call ends: with a status, or early. -/
inductive Ending where
  | status (code : Nat)
  | abort (error : Abort)

/-- What a call leaves behind. -/
structure Outcome where
  ending : Ending
  output : Text
  errors : Text
  files : Files

/-- Whether a failure is reported as the end of the call, with a status, or ends it
early. -/
def Abort.isReported : Abort → Bool
  | .logFile _ => false
  | .scheme (.undecodable _) | .scheme (.number _) => false
  | .scheme _ => true
  | .report (.unencodable _) => false
  | .report _ => true
  | .run (.pass ..) => true
  | .run (.summary _) => false

/-- The name under which calls report. -/
def source : Text := "proxydeob.main".toText

/-- The report as the report file holds it. -/
def reportText (r : Report) : Text := Json.write r.toValue.plain

variable {m : Type → Type} [Monad m]

/-- The end of a successful run: durations and summary are logged and the report is
written. -/
def conclude (now : Text) (s : Settings) (run : Run) : Option Abort × Shell :=
  let shell := run.shell.logAll now
    [⟨.debug, source, "pass timings:\n".toText ++ durationTable run.timings⟩,
      ⟨.info, source, "recovery summary:\n".toText ++ run.context.report.toText⟩]
  match s.reportPath with
  | none => (none, shell)
  | some path =>
    match shell.files.writeText path (reportText run.context.report) with
    | (.error error, files) => (some (.report error), { shell with files := files })
    | (.ok (), files) => (none, { shell with files := files })

/-- Runs all passes on a file. -/
def process (clock : Clock m) (w : Surroundings) (input output : Path) (shell : Shell) :
    m (Option Abort × Shell) := do
  let s := settings w.environment
  let loaded := Scheme.load shell.files w.home s.schemePath Scheme.standardName
  let shell := shell.logAll (← clock.now) loaded.records
  match loaded.outcome with
  | .error error => return (some (.scheme error), shell)
  | .ok scheme =>
    let context := Context.start input (some output) [] scheme { layOut := w.layOut }
    let run ← standard.run clock [] [] context shell
    match run.failure with
    | some error => return (some (.run error), run.shell)
    | none => return conclude (← clock.now) s run

/-- The end of a call whose files were processed. -/
def settled (now : Text) (input output : Path) (abort : Option Abort) (shell : Shell) : Outcome :=
  match abort with
  | none =>
    ⟨.status 0, "Wrote ".toText ++ output.toText ++ "\n".toText, shell.errors, shell.files⟩
  | some error =>
    if error.isReported then
      let shell := shell.log now
        ⟨.error, source,
          "failed processing ".toText ++ input.toText ++ ": ".toText ++ error.message⟩
      let shell := shell.complain ("error: ".toText ++ error.message ++ "\n".toText)
      ⟨.status 1, [], shell.errors, shell.files⟩
    else ⟨.abort error, [], shell.errors, shell.files⟩

/-- Processes a file after setting up the log. -/
def recoverFile (clock : Clock m) (w : Surroundings) (input output : Path) : m Outcome := do
  let s := settings w.environment
  match Setup.configure s.verbose s.logFile w.files with
  | .error error => return ⟨.abort (.logFile error), [], [], w.files⟩
  | .ok (setup, files) =>
    let (abort, shell) ← process clock w input output { files := files, setup := setup }
    return settled (← clock.now) input output abort shell

/-- The input if none is given. -/
def standardInput : Text := "input.js".toText

/-- The output if none is given. -/
def standardOutput : Text := "output.js".toText

/-- The paths that a call can read or write. -/
def touched (arguments : List Text) (env : Environment) : List Path :=
  match Request.ofArguments arguments with
  | .help | .misuse _ => []
  | .run input output =>
    let s := settings env
    [Path.ofText (input.getD standardInput), Path.ofText (output.getD standardOutput)] ++
      s.schemePath.toList ++ s.logFile.toList ++ s.reportPath.toList

/-- A call of the program. -/
def call (clock : Clock m) (w : Surroundings) : m Outcome :=
  match Request.ofArguments w.arguments with
  | .help => return ⟨.status 0, helpText, [], w.files⟩
  | .misuse problem => return ⟨.status 2, [], complaint problem, w.files⟩
  | .run input output =>
    recoverFile clock w (Path.ofText (input.getD standardInput))
      (Path.ofText (output.getD standardOutput))

end Unproxy.CommandLine
