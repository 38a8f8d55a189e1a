import Mathlib
import Unproxy.Proofs.Pipeline.Findings

/-!
# Unproxy.Proofs.Pipeline.Repetition

A run of all passes, and a second one on the context that the first leaves.

Main definitions:

* `Context.adding`: a context with more in its report;
* `Findings.writes`, `missingWarnings`: what a run adds to the report.

Main statements:

* `Findings.result_result`: made again, the change of a run counts once more what adds up;
* `context_of_second_run`: a second run succeeds, and what it adds to the report.
-/

namespace Unproxy

namespace Pipeline

/-! ### The change made again -/

namespace Context

/-- The context with more writes and warnings in its report. -/
def adding (c : Context) (writes : Nat) (warnings : List Text) : Context :=
  { c with
    report :=
      { c.report with
        skippedWrites := c.report.skippedWrites + writes
        warnings := c.report.warnings ++ warnings } }

theorem untimed_adding (c : Context) (writes : Nat) (warnings : List Text) :
    (c.adding writes warnings).untimed = c.untimed.adding writes warnings := rfl

/-- What is added shows, unless it is nothing. -/
theorem adding_eq_iff {c : Context} {writes : Nat} {warnings : List Text} :
    c.adding writes warnings = c ↔ writes = 0 ∧ warnings = [] := by
  constructor
  · intro h
    have hwrites : c.report.skippedWrites + writes = c.report.skippedWrites :=
      congrArg (fun c => c.report.skippedWrites) h
    have hwarnings : c.report.warnings ++ warnings = c.report.warnings :=
      congrArg (fun c => c.report.warnings) h
    exact ⟨by omega, List.append_right_eq_self.mp hwarnings⟩
  · rintro ⟨rfl, rfl⟩
    simp [adding]

end Context

/-- The warnings about tables that were not found. -/
def missingWarnings (missing : List Text) : List Text :=
  if missing.isEmpty then [] else [missingMessage missing]

namespace Findings

variable {scheme : Scheme}

/-- The writes that the findings leave untouched. -/
def writes (f : Findings scheme) : Nat := f.resolution.skippedWrites + f.inlining.skippedWrites

theorem skippedWrites_result (f : Findings scheme) (c : Context) (target : Option Path) :
    (f.result c target).report.skippedWrites = c.report.skippedWrites + f.writes := by
  have hsum : (f.result c target).report.skippedWrites =
      c.report.skippedWrites + f.resolution.skippedWrites + f.inlining.skippedWrites := by
    obtain ⟨outputPath, hreport⟩ := (f.change c).exists_report_delivered
      (rendered c.options f.final) target
    rw [result, hreport]
    rfl
  rw [hsum, writes]
  omega

theorem warnings_result (f : Findings scheme) (c : Context) (target : Option Path) :
    (f.result c target).report.warnings =
      c.report.warnings ++ missingWarnings (f.result c target).report.tablesMissing := by
  have hreport : (f.result c target).report.tablesMissing = missingTables c.scheme f.tables ∧
      (f.result c target).report.warnings = (Report.afterExtraction c.report
        (Text.sort f.tables.keys) (missingTables c.scheme f.tables)).warnings := by
    obtain ⟨outputPath, hreport⟩ := (f.change c).exists_report_delivered
      (rendered c.options f.final) target
    rw [result, hreport]
    exact ⟨rfl, rfl⟩
  rw [hreport.1, hreport.2]
  unfold Report.afterExtraction missingWarnings
  by_cases hempty : (missingTables c.scheme f.tables).isEmpty = true
  · simp [hempty]
  · simp [hempty]

/-- What the passes note. -/
def notes (f : Findings scheme) (scheme' : Scheme) (output : Text) (target : Option Path) :
    List (Text × Value) :=
  [("parse".toText, parseNote f.source f.program),
    ("extract".toText, extractNote f.tables (missingTables scheme' f.tables)),
    ("decode".toText, decodeNote f.wanted f.decoded),
    ("resolve".toText, resolveNote f.resolution),
    ("inline".toText, inlineNote f.collected f.inlining),
    ("render".toText, renderNote output target)]

theorem metadata_result (f : Findings scheme) (c : Context) (target : Option Path) :
    (f.result c target).metadata =
      Entries.setAll (f.notes c.scheme (rendered c.options f.final) target)
        c.metadata := by
  cases target <;> rfl

/-- Made again, the change leaves all as it is but what adds up. -/
theorem result_result (f : Findings scheme) (c : Context) (target : Option Path) :
    let once := f.result c target
    f.result once target = once.adding f.writes (missingWarnings once.report.tablesMissing) := by
  intro once
  have hsame : once.scheme = c.scheme ∧ once.options = c.options := by
    cases target <;> exact ⟨rfl, rfl⟩
  have hnotes : (f.result once target).metadata = once.metadata := by
    have hnodup : ((f.notes c.scheme (rendered c.options f.final) target).map
        Prod.fst).Nodup := by
      show ["parse".toText, "extract".toText, "decode".toText, "resolve".toText,
        "inline".toText, "render".toText].Nodup
      decide
    rw [metadata_result, hsame.1, hsame.2]
    show Entries.setAll _ (f.result c target).metadata = (f.result c target).metadata
    rw [metadata_result, Entries.setAll_setAll hnodup]
  have hothers : f.result once target =
      { once with
        metadata := (f.result once target).metadata
        report :=
          { once.report with
            skippedWrites := (f.result once target).report.skippedWrites
            warnings := (f.result once target).report.warnings } } := by
    obtain ⟨_, outputPath, _, _, _, _, _, _, _, _, _⟩ := c
    cases target with
    | some path => rfl
    | none => cases outputPath <;> rfl
  have hmissing : (f.result once target).report.tablesMissing = once.report.tablesMissing := by
    rw [hothers]
  rw [hothers, hnotes, skippedWrites_result, warnings_result, hmissing]
  rfl

end Findings

/-! ### Two runs -/

/-- Two completed runs make the change of the same findings. -/
theorem findings_of_two_runs {context : Context} {shell : Shell} {first second : Run}
    (hfirst : Run.Ends standardPasses { context := context, shell := shell } first)
    (hsecond : Run.Ends standardPasses { context := first.context, shell := first.shell } second)
    (hnone : first.failure = none) (hsource : first.context.source ≠ [])
    (hobliging : context.options.dryRun = false → shell.files.Obliging) :
    second.failure = none ∧
      ∃ (f : Findings context.scheme) (target : Option Path),
        first.context.untimed = (f.result context target).untimed ∧
        second.context.untimed = (f.result first.context target).untimed := by
  obtain ⟨f, hread⟩ := Findings.of_steps (hfirst.steps hnone) rfl
  obtain ⟨between, hgoes, hcontext, hsetup, hbefore, hends⟩ := f.behind_five hfirst rfl rfl hread
  obtain _ | ⟨hstep, -, _ | _⟩ := hends.steps hnone
  obtain ⟨target, hresult, htarget⟩ := f.last_of_step hcontext hstep hgoes hnone
  have hscheme : first.context.scheme = context.scheme := by
    have h := congrArg Context.scheme hresult
    cases target <;> exact h
  have hoptions : first.context.options = context.options := by
    have h := congrArg Context.options hresult
    cases target <;> exact h
  have hread' : sourceOf first.context first.shell.files = .ok f.source := by
    have h : first.context.source = f.source := by
      have h := congrArg Context.source hresult
      cases target <;> exact h
    rw [sourceOf, if_neg (by simpa using hsource), h]
  obtain ⟨between', hgoes', hcontext', -, hkeeps', hends'⟩ :=
    f.behind_five hsecond rfl hscheme hread'
  have hagain : second.failure = none ∧
      second.context.untimed = (f.result first.context target).untimed := by
    refine f.last_again hcontext' hends' hgoes' ?_
    cases target with
    | none => exact hoptions ▸ htarget
    | some path =>
      obtain ⟨hdry, -, hwrite, hkeeps⟩ := htarget
      have hpath : first.context.outputPath = some path := congrArg Context.outputPath hresult
      refine ⟨hoptions ▸ hdry, hpath, ?_⟩
      -- Between the two times of writing, only the log was written to.
      have hlog : first.shell.setup = between.shell.setup := hstep.keeps.1
      have hkeeps' : Files.Keeps between.shell.setup.file [] first.shell.files
          between'.shell.files := hlog ▸ hkeeps'
      obtain ⟨name, -, hwritten⟩ := @Files.holds_of_writeText _ _ _ none (by simp) hwrite
      have hgrows :=
        (hbefore.toGrows.trans hwritten.toGrows).trans (hkeeps.trans hkeeps').toGrows
      rw [hoptions]
      refine Files.writeText_again hwrite (hkeeps.trans hkeeps') ?_
      rw [Files.Obliging, hgrows.refusal]
      exact hobliging hdry
  exact ⟨hagain.1, f, target, hresult, hagain.2⟩

variable {m : Type → Type} [Monad m] [LawfulMonad m]

/-- A run of all passes that succeeds with a source that is not empty can be made again on the
same context. It succeeds, and leaves all as it was, with two exceptions. The writes that were
left untouched are counted once more, and the warning about missing tables is given once more.
So the two runs leave the same context, up to times, if and only if there are no such writes
and no table is missing. Where the output is written, the system is taken to refuse nothing. -/
theorem context_of_second_run (clock : Clock m) (context : Context) (shell : Shell) :
    SatisfiesM
      (fun (first, second) => first.failure = none → first.context.source ≠ [] →
        (context.options.dryRun = false → shell.files.Obliging) →
        second.failure = none ∧
          ∃ writes warnings,
            first.context.report.skippedWrites = context.report.skippedWrites + (writes : Nat) ∧
            first.context.report.warnings = context.report.warnings ++ warnings ∧
            warnings = missingWarnings first.context.report.tablesMissing ∧
            second.context.untimed = (first.context.adding writes warnings).untimed ∧
            (second.context.untimed = first.context.untimed ↔
              writes = 0 ∧ first.context.report.tablesMissing = []))
      (do
        let first ← standard.run clock [] [] context shell
        let second ← standard.run clock [] [] first.context first.shell
        pure (first, second)) := by
  simp only [Registry.run, standard_select_all]
  refine .bind (Run.satisfiesM_through clock standardPasses _) fun first hfirst => ?_
  refine .bind (Run.satisfiesM_through clock standardPasses _) fun second hsecond => ?_
  refine .pure fun hnone hsource hobliging => ?_
  obtain ⟨hsucceeds, f, target, hresult, hagain⟩ :=
    findings_of_two_runs hfirst hsecond hnone hsource hobliging
  have hreport := congrArg Context.report hresult
  have hwrites : first.context.report.skippedWrites =
      (f.result context target).report.skippedWrites := by
    have h := congrArg Report.skippedWrites hreport
    exact h
  have hwarnings : first.context.report.warnings = (f.result context target).report.warnings := by
    have h := congrArg Report.warnings hreport
    exact h
  have hmissing : first.context.report.tablesMissing =
      (f.result context target).report.tablesMissing := by
    have h := congrArg Report.tablesMissing hreport
    exact h
  have hadding : second.context.untimed =
      (first.context.adding f.writes
        (missingWarnings first.context.report.tablesMissing)).untimed := by
    rw [hagain, Findings.untimed_result, hresult, ← Findings.untimed_result, f.result_result,
      Context.untimed_adding, Context.untimed_adding, hresult, hmissing]
  refine ⟨hsucceeds, f.writes, _, ?_, ?_, rfl, hadding, ?_⟩
  · rw [hwrites, f.skippedWrites_result]
  · rw [hwarnings, f.warnings_result, hmissing]
  · -- Nothing is added if and only if there is neither a write nor a warning.
    rw [hadding, Context.untimed_adding, Context.adding_eq_iff, missingWarnings]
    by_cases hempty : first.context.report.tablesMissing.isEmpty = true
    · simp [List.isEmpty_iff.mp hempty]
    · simp [hempty, List.isEmpty_iff.not.mp hempty]

/-- A program that writes to a table's entry, and holds no table: the second run reports two
writes where the first reported one, and gives its warning twice. -/
theorem context_of_second_run_write :
    let context := Context.start memoryPath none "a.H.z.f = 1;".toText Scheme.standard
      { dryRun := true, layOut := id }
    let shell : Shell := ⟨.empty, .initial, [], []⟩
    let first := Id.run (standard.run (Clock.still []) [] [] context shell)
    let second := Id.run (standard.run (Clock.still []) [] [] first.context first.shell)
    first.failure = none ∧ first.context.source ≠ [] ∧ second.failure = none ∧
      first.context.report.skippedWrites = 1 ∧ second.context.report.skippedWrites = 2 ∧
      first.context.report.warnings.length = 1 ∧ second.context.report.warnings.length = 2 := by
  intro context shell first second
  have hfirst : first = Id.run (Run.through (Clock.still []) standardPasses
      { context := context, shell := shell }) := by
    rw [← standard_select_all]
    rfl
  have hchecked : first.failure.isNone = true ∧ first.context.source ≠ [] ∧
      first.context.report.skippedWrites = 1 ∧ first.context.report.warnings.length = 1 := by
    rw [hfirst]
    decide +kernel
  obtain ⟨hnone, hsource, hskipped, hlength⟩ := hchecked
  have hnone : first.failure = none := Option.isNone_iff_eq_none.mp hnone
  obtain ⟨hsucceeds, writes, warnings, hwrites, hwarnings, -, hadding, -⟩ :=
    SatisfiesM_Id_eq.mp (context_of_second_run (Clock.still []) context shell) hnone hsource nofun
  have hreport := congrArg Context.report hadding
  have hskipped' : second.context.report.skippedWrites =
      first.context.report.skippedWrites + writes := congrArg Report.skippedWrites hreport
  have hwarnings' : second.context.report.warnings =
      first.context.report.warnings ++ warnings := congrArg Report.warnings hreport
  have hone : first.context.report.skippedWrites = 0 + writes := hwrites
  have hlength' : first.context.report.warnings = [] ++ warnings := hwarnings
  refine ⟨hnone, hsource, hsucceeds, hskipped, by omega, hlength, ?_⟩
  rw [hwarnings', List.length_append, hlength]
  rw [hlength', List.nil_append] at hlength
  rw [hlength]

end Pipeline

end Unproxy
