import Unproxy.Pipeline.Passes
import Unproxy.Pipeline.Shell
import Unproxy.Text.Space

/-!
# Unproxy.Pipeline.Registry

Passes by name, and runs of them.

Main definitions:

* `Registry`: passes; one registered again keeps its place and takes the new form;
* `Registry.select`: the passes of a run, in order;
* `Registry.run`: runs them one after the other and stops at the first failure.
-/

namespace Unproxy.Pipeline

open Log

/-- Passes in the order in which their names were first registered. -/
abbrev Registry := List Pass

namespace Registry

/-- Adds a pass, in the place of one with its name if there is one. -/
def register (pass : Pass) : Registry → Registry
  | [] => [pass]
  | p :: ps => if p.name = pass.name then pass :: ps else p :: register pass ps

/-- The order of passes: by number, then by name. -/
def before (a b : Pass) : Bool :=
  a.order < b.order || (a.order == b.order && Text.le a.name b.name)

/-- The names of the passes in order. -/
def names (r : Registry) : List Text := (r.mergeSort before).map Pass.name

/-- The names asked for: without white space around them; empty ones do not
count. -/
def wanted (names : List Text) : List Text := (names.filter fun t => !t.isEmpty).map Text.strip

/-- The passes of a run in order: those not in `skip`, and of them those in `only`
if that names any. -/
def select (r : Registry) (skip only : List Text) : List Pass :=
  let skip := wanted skip
  let only := wanted only
  (r.filter fun p => !skip.contains p.name && (only.isEmpty || only.contains p.name)).mergeSort before

end Registry

/-! ### Summaries -/

/-- Why what a pass noted as missing cannot be shown. -/
inductive SummaryError where
  | notList
  | notText (index : Nat) (typeName : Text)
  deriving DecidableEq, Repr

/-- The wording of a failed summary. -/
def SummaryError.message : SummaryError → Text
  | .notList => "can only join an iterable".toText
  | .notText index typeName =>
    "sequence item ".toText ++ Text.ofNat index ++ ": expected str instance, ".toText ++ typeName ++
      " found".toText

/-- Texts with commas between them; the first other value is a failure. -/
def joinTexts (index : Nat) : List Value → Except SummaryError (List Text)
  | [] => .ok []
  | .text t :: items => (joinTexts (index + 1) items).map (t :: ·)
  | item :: _ => .error (.notText index item.typeName)

/-- A key as a value. -/
def keyValue : Key → Value
  | .null => .null
  | .bool b => .bool b
  | .number n => .number n
  | .text t => .text t

/-- The items of a value that is a row of some kind: a list, the keys of an object,
the code points of a text. -/
def itemsOf : Value → Option (List Value)
  | .array items => some items
  | .object members => some (members.map fun (key, _) => keyValue key)
  | .text t => some (t.map fun c => .text [c])
  | _ => none

/-- The part of a summary about what is missing. -/
def missingPart (metadata : Value) : Except SummaryError (List Text) :=
  match metadata.member? "missing".toText with
  | none => .ok []
  | some missing =>
    if missing.isTruthy then
      match itemsOf missing with
      | none => .error .notList
      | some items =>
        (joinTexts 0 items).map fun texts => ["missing=".toText ++ Text.join ",".toText texts]
    else .ok []

/-- The part of a summary about a count: an integer, or a truth value. -/
def countPart (metadata : Value) (name : String) : List Text :=
  match metadata.member? name.toText with
  | some (.number (.int i)) => [name.toText ++ "=".toText ++ Text.ofInt i]
  | some (.bool b) => [name.toText ++ "=".toText ++ (Value.bool b).display]
  | _ => []

/-- What a pass noted, in short. -/
def summary (metadata : Value) : Except SummaryError Text :=
  (missingPart metadata).map fun missing =>
    let parts := ["resolved", "misses", "inlined", "collected"].flatMap (countPart metadata) ++ missing
    if parts.isEmpty then [] else " (".toText ++ Text.join ", ".toText parts ++ ")".toText

/-! ### Runs -/

/-- Why a run stops. -/
inductive RunError where
  /-- A pass failed; `completed` are those that did not. -/
  | pass (name : Text) (cause : PassError) (completed : List Text)
  | summary (error : SummaryError)

/-- The wording of a stopped run. -/
def RunError.message : RunError → Text
  | .pass name cause _ => "pass ".toText ++ name ++ " failed: ".toText ++ cause.message
  | .summary error => error.message

/-- A run under way. -/
structure Run where
  context : Context
  shell : Shell
  /-- The passes begun. -/
  entered : List Text := []
  /-- The passes completed, with the seconds they took. -/
  timings : List (Text × Binary64) := []
  failure : Option RunError := none

namespace Run

/-- The name under which runs report. -/
def source : Text := "proxydeob.pipeline".toText

/-- Seconds with three places. -/
def seconds (duration : Binary64) : Text := duration.fixed 3 ++ "s".toText

/-- The run after a pass failed. -/
def fail (run : Run) (name : Text) (cause : PassError) (duration : Binary64) (now : Text) : Run :=
  { run with
    shell := run.shell.log now
      ⟨.error, source,
        "pass ".toText ++ name ++ " failed after ".toText ++ seconds duration ++ ": ".toText ++
          cause.message⟩
    failure := some (.pass name cause (run.timings.map Prod.fst)) }

/-- The run after a pass was completed. -/
def complete (run : Run) (name : Text) (duration : Binary64) (now : Text) : Run :=
  let report :=
    { run.context.report with
      timings := Entries.set name (.float duration) run.context.report.timings }
  let run :=
    { run with
      timings := run.timings ++ [(name, duration)]
      context := { run.context with report := report } }
  match summary ((run.context.metadata.get? name).getD .null) with
  | .error error => { run with failure := some (.summary error) }
  | .ok suffix =>
    { run with
      shell := run.shell.log now
        ⟨.info, source,
          "pass ".toText ++ name ++ " completed in ".toText ++ seconds duration ++ suffix⟩ }

/-- The run after a pass that took some time. -/
def settle (run : Run) (name : Text) (result : PassResult) (duration : Binary64) (now : Text) : Run :=
  let run :=
    { run with
      context := result.context
      shell := { run.shell with files := result.files }.logAll now result.records
      entered := run.entered ++ [name] }
  match result.failure with
  | some cause => run.fail name cause duration now
  | none => run.complete name duration now

variable {m : Type → Type} [Monad m]

/-- Runs passes one after the other, up to the first failure. -/
def through (clock : Clock m) : List Pass → Run → m Run
  | [], run => pure run
  | pass :: passes, run => do
    let (result, duration) ← clock.measure fun _ => pass.run run.context run.shell.files
    let now ← clock.now
    let run := run.settle pass.name result.val duration.val now
    if run.failure.isSome then pure run else through clock passes run

end Run

/-- Runs passes of a registry on a context. -/
def Registry.run {m : Type → Type} [Monad m] (clock : Clock m) (r : Registry) (skip only : List Text)
    (context : Context) (shell : Shell) : m Run :=
  Run.through clock (r.select skip only) { context := context, shell := shell }

/-- The registry of the standard passes. -/
def standard : Registry := standardPasses.foldl (fun r pass => r.register pass) []

/-- The path shown for a program that is not in a file. -/
def memoryPath : Path := Path.ofText "<memory>".toText

/-- Recovers a program that is not in a file: the text of the result. -/
def recover {m : Type → Type} [Monad m] (clock : Clock m) (layOut : Text → Text) (scheme : Scheme)
    (source : Text) (shell : Shell) : m (Except RunError Text) := do
  let context := Context.start memoryPath none source scheme { dryRun := true, layOut := layOut }
  let run ← standard.run clock [] [] context shell
  match run.failure with
  | some error => return .error error
  | none => return .ok run.context.output

/-! ### Tables of durations -/

/-- A table of passes with the seconds they took. -/
def durationTable (timings : List (Text × Binary64)) : Text :=
  match timings with
  | [] => []
  | timings =>
    let width := (timings.map fun (name, _) => name.length).foldl max 0
    Text.join "\n".toText
      ((Text.padRight width "Pass".toText ++ "  Duration".toText) ::
        timings.map fun (name, duration) =>
          Text.padRight width name ++ "  ".toText ++ Run.seconds duration)

end Unproxy.Pipeline
