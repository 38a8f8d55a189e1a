import Unproxy.Log.Setup
import Unproxy.Number.Binary64

/-!
# Unproxy.Pipeline.Shell

What surrounds a run: the files, where records go, what was shown so far, and a
clock.
-/

namespace Unproxy.Pipeline

open Log

/-- What surrounds a run. -/
structure Shell where
  files : Files
  setup : Setup
  /-- What was written to the terminal's error channel. -/
  errors : Text := []
  /-- Every record sent, whether it was shown or not. -/
  records : List Record := []

namespace Shell

/-- Sends one record. -/
def log (s : Shell) (now : Text) (r : Record) : Shell :=
  let (shown, files) := s.setup.emit now r s.files
  { s with files := files, errors := s.errors ++ shown, records := s.records ++ [r] }

/-- Sends records one after the other. -/
def logAll (s : Shell) (now : Text) (records : List Record) : Shell :=
  records.foldl (fun s r => s.log now r) s

/-- Writes to the terminal's error channel. -/
def complain (s : Shell) (t : Text) : Shell := { s with errors := s.errors ++ t }

end Shell

/-- A number of seconds: any double, in the form in which doubles are kept. -/
abbrev Duration := { d : Binary64 // d.isCanonical = true }

/-- No time. -/
def Duration.zero : Duration := ⟨Binary64.signedZero false, rfl⟩

/-- A clock: the time as logs show it, and how many seconds a computation takes. What
was measured is what the computation gives. -/
structure Clock (m : Type → Type) where
  now : m Text
  measure : {α : Type} → (f : Unit → α) → m ({ a : α // a = f () } × Duration)

/-- What a computation gives, known to be that. -/
def Clock.outcome {α : Type} (f : Unit → α) : { a : α // a = f () } := ⟨f (), rfl⟩

/-- A clock that stands still. -/
def Clock.still (now : Text) : Clock Id where
  now := now
  measure f := (outcome f, Duration.zero)

end Unproxy.Pipeline
