import Mathlib
import Unproxy.Pipeline.Registry
import Unproxy.Proofs.Files.Store

/-!
# Unproxy.Proofs.Pipeline.Run

What a run does, one pass at a time, whatever the clock shows.

Main definitions:

* `Run.Step`: a pass takes a run on, at some reading of the clock;
* `Run.Steps`: passes one after the other, none of which stops the run;
* `Run.Ends`: how a run ends, behind all its passes or at one that stops it.

Main statements:

* `Run.Step.cases`: what one pass does to a run;
* `Run.Steps.spec`: what passes leave behind that stop nothing;
* `Run.satisfiesM_through`: a run ends in one of the two ways, whatever the clock is made of.
-/

namespace Unproxy.Pipeline

open Log

/-! ### Records -/

namespace Shell

/-- Sending a record touches no file but the log. -/
theorem keeps_log (s : Shell) (now : Text) (r : Record) :
    (s.log now r).setup = s.setup ∧ Files.Keeps s.setup.file [] s.files (s.log now r).files := by
  refine ⟨rfl, ?_⟩
  show Files.Keeps s.setup.file [] s.files (s.setup.emit now r s.files).2
  unfold Setup.emit
  split
  · cases hfile : s.setup.file with
    | none => exact .refl _ _ _
    | some id => exact Files.keeps_append _ _ _
  · exact .refl _ _ _

theorem keeps_logAll (s : Shell) (now : Text) (records : List Record) :
    (s.logAll now records).setup = s.setup ∧
      Files.Keeps s.setup.file [] s.files (s.logAll now records).files := by
  induction records generalizing s with
  | nil => exact ⟨rfl, .refl _ _ _⟩
  | cons r records ih =>
    obtain ⟨hsetup, hfiles⟩ := s.keeps_log now r
    obtain ⟨hsetup', hfiles'⟩ := ih (s.log now r)
    rw [hsetup] at hsetup' hfiles'
    exact ⟨hsetup', hfiles.trans hfiles'⟩

end Shell

/-! ### One pass -/

namespace Context

/-- The context with the time that a pass took. -/
def timed (c : Context) (name : Text) (duration : Binary64) : Context :=
  { c with
    report := { c.report with timings := Entries.set name (.float duration) c.report.timings } }

/-- What a pass noted. -/
def noteOf (c : Context) (name : Text) : Value := (c.metadata.get? name).getD .null

end Context

namespace Run

/-- A pass takes one run to the next, at some reading of the clock. -/
def Step (pass : Pass) (before after : Run) : Prop :=
  ∃ (duration : Duration) (now : Text),
    after = before.settle pass.name (pass.run before.context before.shell.files) duration.val now

/-- A summary that cannot be made stops a run. -/
def summaryFailure (note : Value) : Option RunError :=
  match summary note with
  | .error error => some (.summary error)
  | .ok _ => none

section

variable {pass : Pass} {before after : Run}

theorem Step.entered (h : Step pass before after) :
    after.entered = before.entered ++ [pass.name] := by
  obtain ⟨duration, now, rfl⟩ := h
  unfold settle
  split
  · rfl
  · dsimp only [complete]
    split <;> rfl

/-- Beyond what the pass does to the files, its records go to the log. -/
theorem Step.keeps (h : Step pass before after) :
    after.shell.setup = before.shell.setup ∧
      Files.Keeps before.shell.setup.file [] (pass.run before.context before.shell.files).files
        after.shell.files := by
  obtain ⟨duration, now, rfl⟩ := h
  generalize pass.run before.context before.shell.files = result
  obtain ⟨hsetup, hfiles⟩ :=
    Shell.keeps_logAll { before.shell with files := result.files } now result.records
  have hlog : ∀ r, ((Shell.logAll { before.shell with files := result.files } now
      result.records).log now r).setup = before.shell.setup ∧
      Files.Keeps before.shell.setup.file [] result.files
        ((Shell.logAll { before.shell with files := result.files } now result.records).log now
          r).files := by
    intro r
    obtain ⟨hsetup', hfiles'⟩ := Shell.keeps_log
      (Shell.logAll { before.shell with files := result.files } now result.records) now r
    rw [hsetup] at hsetup' hfiles'
    exact ⟨hsetup', hfiles.trans hfiles'⟩
  unfold settle
  split
  · exact hlog _
  · dsimp only [complete]
    split
    · exact ⟨hsetup, hfiles⟩
    · exact hlog _

/-- What a pass does to a run. It fails, and the run stops with what the pass left of the
context; or it succeeds and its time is taken, and then only its summary can stop the run. -/
theorem Step.cases (h : Step pass before after) (hbefore : before.failure = none) :
    let result := pass.run before.context before.shell.files
    (∃ cause, result.failure = some cause ∧ after.context = result.context ∧
        after.timings = before.timings ∧
        after.failure = some (.pass pass.name cause (before.timings.map Prod.fst))) ∨
      (result.failure = none ∧ ∃ duration : Duration,
        after.context = result.context.timed pass.name duration.val ∧
        after.timings = before.timings ++ [(pass.name, duration.val)] ∧
        after.failure = summaryFailure (result.context.noteOf pass.name)) := by
  obtain ⟨duration, now, rfl⟩ := h
  generalize pass.run before.context before.shell.files = result
  unfold settle
  split
  · rename_i cause hcause
    exact .inl ⟨cause, hcause, rfl, rfl, rfl⟩
  · rename_i hnone
    refine .inr ⟨hnone, duration, ?_⟩
    unfold complete summaryFailure
    simp only [Context.noteOf]
    cases summary ((result.context.metadata.get? pass.name).getD .null) with
    | error error => exact ⟨rfl, rfl, rfl⟩
    | ok suffix => exact ⟨rfl, rfl, hbefore⟩

end

/-! ### Passes one after the other -/

/-- Passes take one run to another, one after the other, and none of them stops it. -/
inductive Steps : List Pass → Run → Run → Prop
  | nil {run : Run} : Steps [] run run
  | cons {pass : Pass} {passes : List Pass} {before next after : Run}
      (step : Step pass before next) (goesOn : next.failure = none)
      (others : Steps passes next after) : Steps (pass :: passes) before after

/-- How a run ends: behind all its passes, or at one that stops it. -/
inductive Ends : List Pass → Run → Run → Prop
  | complete {passes : List Pass} {before after : Run} (steps : Steps passes before after) :
      Ends passes before after
  | stopped {done rest : List Pass} {pass : Pass} {before between after : Run}
      (steps : Steps done before between) (step : Step pass between after)
      (stops : after.failure ≠ none) : Ends (done ++ pass :: rest) before after

theorem Ends.cons {pass : Pass} {passes : List Pass} {before next after : Run}
    (step : Step pass before next) (goesOn : next.failure = none) (h : Ends passes next after) :
    Ends (pass :: passes) before after := by
  cases h with
  | complete steps => exact .complete (.cons step goesOn steps)
  | stopped steps step' stops => exact .stopped (.cons step goesOn steps) step' stops

/-- A run that nothing stopped has completed its passes. -/
theorem Ends.steps {passes : List Pass} {before after : Run} (h : Ends passes before after)
    (hnone : after.failure = none) : Steps passes before after := by
  cases h with
  | complete steps => exact steps
  | stopped steps step stops => exact absurd hnone stops

theorem Ends.nil_iff {before after : Run} : Ends [] before after ↔ after = before := by
  constructor
  · intro h
    generalize hpasses : ([] : List Pass) = passes at h
    cases h with
    | complete steps =>
      subst hpasses
      cases steps with
      | nil => rfl
    | stopped steps step stops => simp at hpasses
  · intro h
    exact h ▸ .complete .nil

/-- A run whose first pass cannot stop it goes on behind that pass. -/
theorem Ends.behind {pass : Pass} {passes : List Pass} {before after : Run}
    (h : Ends (pass :: passes) before after)
    (hgoes : ∀ next, Step pass before next → next.failure = none) :
    ∃ next, Step pass before next ∧ next.failure = none ∧ Ends passes next after := by
  generalize hpasses : pass :: passes = all at h
  cases h with
  | complete steps =>
    subst hpasses
    cases steps with
    | cons step goesOn others => exact ⟨_, step, goesOn, .complete others⟩
  | @stopped done rest pass' _ between _ steps step stops =>
    cases done with
    | nil =>
      -- The pass that stops the run would be the first one.
      obtain ⟨rfl, rfl⟩ := List.cons.inj hpasses
      cases steps with
      | nil => exact absurd (hgoes after step) stops
    | cons first done =>
      obtain ⟨rfl, rfl⟩ := List.cons.inj hpasses
      cases steps with
      | cons step' goesOn others => exact ⟨_, step', goesOn, .stopped others step stops⟩

/-- What passes leave behind that stop nothing. -/
theorem Steps.spec {passes : List Pass} {before after : Run} (h : Steps passes before after)
    (hbefore : before.failure = none) :
    after.failure = none ∧ after.entered = before.entered ++ passes.map Pass.name ∧
      after.timings.map Prod.fst = before.timings.map Prod.fst ++ passes.map Pass.name ∧
      after.shell.setup = before.shell.setup := by
  induction h with
  | nil => exact ⟨hbefore, by simp, by simp, rfl⟩
  | @cons pass passes before next after step goesOn others ih =>
    obtain ⟨hfailure, hentered, htimings, hsetup⟩ := ih goesOn
    refine ⟨hfailure, ?_, ?_, hsetup.trans step.keeps.1⟩
    · rw [hentered, step.entered, List.append_assoc]
      rfl
    · rcases step.cases hbefore with ⟨cause, -, -, -, hstops⟩ | ⟨-, duration, -, htimed, -⟩
      · rw [goesOn] at hstops
        cases hstops
      · rw [htimings, htimed, List.map_append, List.append_assoc]
        rfl

variable {m : Type → Type} [Monad m] [LawfulMonad m]

/-- A run ends behind all its passes or at one that stops it, whatever the clock shows. -/
theorem satisfiesM_through (clock : Clock m) (passes : List Pass) (run : Run) :
    SatisfiesM (Ends passes run) (through clock passes run) := by
  induction passes generalizing run with
  | nil => exact .pure (.complete .nil)
  | cons pass passes ih =>
    rw [through]
    refine .bind .trivial fun measured _ => .bind .trivial fun now _ => ?_
    -- What the clock measured is what the pass gives, so only its readings are unknown.
    obtain ⟨⟨result, hresult⟩, duration⟩ := measured
    have hstep : Step pass run (run.settle pass.name result duration now) :=
      ⟨duration, now, by rw [hresult]⟩
    dsimp only
    split
    · rename_i hstops
      refine .pure (Ends.stopped .nil hstep fun hnone => ?_)
      rw [hnone] at hstops
      cases hstops
    · rename_i hgoes
      exact (ih _).imp (Ends.cons hstep (by simpa using hgoes))

end Run

end Unproxy.Pipeline
