import Mathlib
import Unproxy.Proofs.Pipeline.Passes
import Unproxy.Proofs.Report

/-!
# Unproxy.Proofs.Pipeline.Findings

A run of all passes: what they find, and what becomes of the context and the files.

Main definitions:

* `Context.untimed`: a context up to the times that passes took;
* `Findings`: what the passes find in a source, each in what those before it found;
* `Findings.result`: the change that the findings make to a context.

Main statements:

* `Findings.of_steps`, `Findings.behind_five`: the passes before the last one make the change of
  some findings, and make it on every context with the same source and scheme;
* `Findings.last_of_step`, `Findings.last_again`: what the last pass adds;
* `spares_of_stopped`, `written_of_completed`: a run that is stopped touches no file but the log,
  and one that is completed has written its output;
* `timed_of_completed`: it reports one duration for each pass.
-/

namespace Unproxy

namespace Pipeline

open Log Syntax

/-! ### Up to times -/

namespace Context

/-- The context without the times that passes took. -/
def untimed (c : Context) : Context := { c with report := { c.report with timings := [] } }

theorem untimed_timed (c : Context) (name : Text) (duration : Binary64) :
    (c.timed name duration).untimed = c.untimed := rfl

/-- The context after the last pass: nothing is written, or the output goes to a target. -/
def delivered (c : Context) (output : Text) (target : Option Path) : Context :=
  match target with
  | none => (c.printed output).unwritten
  | some path => (c.printed output).written path

theorem untimed_delivered (c : Context) (output : Text) (target : Option Path) :
    (c.delivered output target).untimed = c.untimed.delivered output target := by
  obtain ⟨_, outputPath, _, _, _, _, _, _, _, _, _⟩ := c
  cases target with
  | some path => rfl
  | none => cases outputPath <;> rfl

/-- The last pass changes two fields of the report. -/
theorem exists_report_delivered (c : Context) (output : Text) (target : Option Path) :
    ∃ outputPath, (c.delivered output target).report =
      { c.report with outputLength := output.length, outputPath := outputPath } := by
  obtain ⟨_, outputPath, _, _, _, _, _, _, _, _, _⟩ := c
  cases target with
  | some path => exact ⟨_, rfl⟩
  | none => cases outputPath <;> exact ⟨_, rfl⟩

end Context

/-- What passes find in a source, and that they find it whatever else the context holds. -/
structure Findings (scheme : Scheme) where
  source : Text
  program : Program
  tables : Table.Raw
  wanted : List Text
  decoded : Table.Decoded
  resolved : Program
  resolution : Resolution.Tally
  final : Program
  collected : Nat
  inlining : Alias.Tally
  parses : ∀ c files, sourceOf c files = .ok source →
    (parsePass c files).Leaves (c.parsed source program) files none
  extracts : ∀ c files, (c.program, c.scheme) = (some program, scheme) →
    (withProgram extractPass c files).Leaves (c.extracted tables) files none
  decodes : ∀ c files, (c.program, c.scheme, c.raw) = (some program, scheme, tables) →
    (withProgram decodePass c files).Leaves (c.withDecoded wanted decoded) files none
  resolves : ∀ c files, (c.program, c.scheme, c.decoded) = (some program, scheme, decoded) →
    (withProgram resolvePass c files).Leaves (c.resolved resolved resolution) files none
  inlines : ∀ c files, (c.program, c.scheme) = (some resolved, scheme) →
    (withProgram inlinePass c files).Leaves (c.inlined final collected inlining) files none

namespace Run

/-- Passes that leave a context behind without failing take a run on. -/
theorem Step.of_leaves {pass : Pass} {before next : Run} (hstep : Step pass before next)
    (hpass : pass ∈ standardPasses) (hbefore : before.failure = none) {c : Context} {files : Files}
    (hleaves : (pass.run before.context before.shell.files).Leaves c files none) :
    next.failure = none ∧ (∃ duration, next.context = c.timed pass.name duration) ∧
      next.shell.setup = before.shell.setup ∧
      Files.Keeps before.shell.setup.file [] files next.shell.files := by
  obtain ⟨hcontext, hfiles, hsucceeds⟩ := hleaves
  obtain ⟨hsetup, hkeeps⟩ := hstep.keeps
  rw [hfiles] at hkeeps
  rcases hstep.cases hbefore with ⟨cause, hfails, -⟩ | ⟨-, duration, htimed, -, hfailure⟩
  · exact absurd (hfails.symm.trans hsucceeds) (by simp)
  · rw [summaryFailure_of_standard hpass hsucceeds] at hfailure
    exact ⟨hfailure, ⟨duration, hcontext ▸ htimed⟩, hsetup, hkeeps⟩

/-- A run goes on behind a pass that leaves a context behind and no file changed. -/
theorem Ends.behind_of_leaves {pass : Pass} {passes : List Pass} {before after : Run}
    (h : Ends (pass :: passes) before after) (hpass : pass ∈ standardPasses)
    (hbefore : before.failure = none) {c : Context}
    (hleaves : (pass.run before.context before.shell.files).Leaves c before.shell.files none) :
    ∃ next, next.failure = none ∧ (∃ duration, next.context = c.timed pass.name duration) ∧
      next.shell.setup = before.shell.setup ∧
      Files.Keeps before.shell.setup.file [] before.shell.files next.shell.files ∧
      Ends passes next after := by
  obtain ⟨next, hstep, hgoes, hends⟩ :=
    h.behind fun next hstep => (hstep.of_leaves hpass hbefore hleaves).1
  obtain ⟨-, hcontext, hsetup, hkeeps⟩ := hstep.of_leaves hpass hbefore hleaves
  exact ⟨next, hgoes, hcontext, hsetup, hkeeps, hends⟩

end Run

/-- A careful pass that does not stop a run makes its change on every context that looks the
same to it. -/
theorem Careful.change_of_step {α : Type} {pass : Pass} {looksAt : Context → α}
    {Change : (Context → Context) → Prop} (h : Careful pass.run looksAt Change)
    {before next : Run} (hstep : Run.Step pass before next) (hbefore : before.failure = none)
    (hgoes : next.failure = none) :
    ∃ change, Change change ∧ ∀ c files, looksAt c = looksAt before.context →
      (pass.run c files).Leaves (change c) files none := by
  rcases h before.context before.shell.files with ⟨cause, -, -, hfails⟩ | hsucceeds
  · rcases hstep.cases hbefore with ⟨_, -, -, -, hstops⟩ | ⟨hnone, -⟩
    · exact absurd (hgoes.symm.trans hstops) (by simp)
    · exact absurd (hfails.symm.trans hnone) (by simp)
  · exact hsucceeds

/-- A pass that takes a run on did not fail. -/
theorem Run.Step.failure_of_goesOn {pass : Pass} {before next : Run}
    (hstep : Run.Step pass before next) (hbefore : before.failure = none)
    (hgoes : next.failure = none) :
    (pass.run before.context before.shell.files).failure = none := by
  rcases hstep.cases hbefore with ⟨_, -, -, -, hstops⟩ | ⟨hnone, -⟩
  · exact absurd (hgoes.symm.trans hstops) (by simp)
  · exact hnone

/-- The pass that writes the result. -/
def lastPass : Pass := ⟨"render".toText, 60, withProgram renderPass⟩

theorem lastPass_mem : lastPass ∈ standardPasses := by
  simp [lastPass, standardPasses]

namespace Findings

variable {scheme : Scheme}

/-- The change that all passes but the last make to a context. -/
def change (f : Findings scheme) (c : Context) : Context :=
  ((((c.parsed f.source f.program).extracted f.tables).withDecoded f.wanted f.decoded).resolved
    f.resolved f.resolution).inlined f.final f.collected f.inlining

theorem untimed_change (f : Findings scheme) (c : Context) :
    (f.change c).untimed = f.change c.untimed := rfl

/-- A run of all passes comes to the last one with the change made, and no file but the log
touched. -/
theorem behind_five (f : Findings scheme) {start last : Run}
    (h : Run.Ends standardPasses start last) (hstart : start.failure = none)
    (hscheme : start.context.scheme = scheme)
    (hsource : sourceOf start.context start.shell.files = .ok f.source) :
    ∃ between, between.failure = none ∧
      between.context.untimed = (f.change start.context).untimed ∧
      between.shell.setup = start.shell.setup ∧
      Files.Keeps start.shell.setup.file [] start.shell.files between.shell.files ∧
      Run.Ends [lastPass] between last := by
  subst hscheme
  unfold standardPasses at h
  obtain ⟨r₁, g₁, ⟨d₁, c₁⟩, s₁, k₁, h⟩ :=
    h.behind_of_leaves (by simp [standardPasses]) hstart (f.parses _ _ hsource)
  -- Each pass finds in the context what those before it have put there.
  obtain ⟨r₂, g₂, ⟨d₂, c₂⟩, s₂, k₂, h⟩ := h.behind_of_leaves (by simp [standardPasses]) g₁
    (f.extracts _ _ (by rw [c₁]; rfl))
  obtain ⟨r₃, g₃, ⟨d₃, c₃⟩, s₃, k₃, h⟩ := h.behind_of_leaves (by simp [standardPasses]) g₂
    (f.decodes _ _ (by rw [c₂, c₁]; rfl))
  obtain ⟨r₄, g₄, ⟨d₄, c₄⟩, s₄, k₄, h⟩ := h.behind_of_leaves (by simp [standardPasses]) g₃
    (f.resolves _ _ (by rw [c₃, c₂, c₁]; rfl))
  obtain ⟨r₅, g₅, ⟨d₅, c₅⟩, s₅, k₅, h⟩ := h.behind_of_leaves (by simp [standardPasses]) g₄
    (f.inlines _ _ (by rw [c₄, c₃, c₂, c₁]; rfl))
  rw [s₁] at s₂ k₂
  rw [s₂] at s₃ k₃
  rw [s₃] at s₄ k₄
  rw [s₄] at s₅ k₅
  refine ⟨r₅, g₅, ?_, s₅, (((k₁.trans k₂).trans k₃).trans k₄).trans k₅, h⟩
  rw [c₅, c₄, c₃, c₂, c₁]
  rfl

/-- The passes of a run that was completed have found something. -/
theorem of_steps {start last : Run} (h : Run.Steps standardPasses start last)
    (hstart : start.failure = none) :
    ∃ f : Findings start.context.scheme,
      sourceOf start.context start.shell.files = .ok f.source := by
  unfold standardPasses at h
  obtain _ | ⟨step₁, g₁, _ | ⟨step₂, g₂, _ | ⟨step₃, g₃, _ | ⟨step₄, g₄, _ | ⟨step₅, g₅, -⟩⟩⟩⟩⟩ := h
  rename_i r₁ r₂ r₃ r₄ r₅
  obtain ⟨source, p, hsource, hparses⟩ : ∃ source p,
      sourceOf start.context start.shell.files = .ok source ∧
      ∀ c files, sourceOf c files = .ok source →
        (parsePass c files).Leaves (c.parsed source p) files none := by
    have hnone := step₁.failure_of_goesOn hstart g₁
    rcases parsePass_cases start.context start.shell.files with ⟨_, -, -, hfails⟩ |
      ⟨_, _, -, -, -, hfails⟩ | hsucceeds
    · exact absurd (hfails.symm.trans hnone) (by simp)
    · exact absurd (hfails.symm.trans hnone) (by simp)
    · exact hsucceeds
  obtain ⟨-, ⟨d₁, c₁⟩, -, -⟩ :=
    step₁.of_leaves (by simp [standardPasses]) hstart (hparses _ _ hsource)
  obtain ⟨_, ⟨tables, rfl⟩, hextracts⟩ := careful_extract.change_of_step step₂ g₁ g₂
  obtain ⟨-, ⟨d₂, c₂⟩, -, -⟩ := step₂.of_leaves (by simp [standardPasses]) g₁ (hextracts _ _ rfl)
  obtain ⟨_, ⟨wanted, decoded, rfl⟩, hdecodes⟩ := careful_decode.change_of_step step₃ g₂ g₃
  obtain ⟨-, ⟨d₃, c₃⟩, -, -⟩ := step₃.of_leaves (by simp [standardPasses]) g₂ (hdecodes _ _ rfl)
  obtain ⟨_, ⟨resolved, resolution, rfl⟩, hresolves⟩ := careful_resolve.change_of_step step₄ g₃ g₄
  obtain ⟨-, ⟨d₄, c₄⟩, -, -⟩ := step₄.of_leaves (by simp [standardPasses]) g₃ (hresolves _ _ rfl)
  obtain ⟨_, ⟨final, collected, inlining, rfl⟩, hinlines⟩ :=
    careful_inline.change_of_step step₅ g₄ g₅
  refine ⟨⟨source, p, tables, wanted, decoded, resolved, resolution, final, collected, inlining,
    hparses, ?_, ?_, ?_, ?_⟩, hsource⟩
  · intro c files hlooks
    exact hextracts c files (hlooks.trans (by rw [c₁]; rfl))
  · intro c files hlooks
    exact hdecodes c files (hlooks.trans (by rw [c₂, c₁]; rfl))
  · intro c files hlooks
    exact hresolves c files (hlooks.trans (by rw [c₃, c₂, c₁]; rfl))
  · intro c files hlooks
    exact hinlines c files (hlooks.trans (by rw [c₄, c₃, c₂, c₁]; rfl))

/-- The change that all passes make. -/
def result (f : Findings scheme) (c : Context) (target : Option Path) : Context :=
  (f.change c).delivered (rendered c.options f.final) target

theorem untimed_result (f : Findings scheme) (c : Context) (target : Option Path) :
    (f.result c target).untimed = f.result c.untimed target := by
  rw [result, Context.untimed_delivered, untimed_change]
  rfl

section

variable {c : Context} {between last : Run} (f : Findings scheme)
  (hcontext : between.context.untimed = (f.change c).untimed)

include hcontext

/-- What the last pass finds in the context. -/
theorem at_last :
    between.context.options = c.options ∧ between.context.outputPath = c.outputPath ∧
      lastPass.run between.context between.shell.files =
        renderPass f.final between.context between.shell.files := by
  have hprogram : between.context.program = some f.final := congrArg Context.program hcontext
  have hoptions := congrArg Context.options hcontext
  have hpath := congrArg Context.outputPath hcontext
  refine ⟨hoptions, hpath, ?_⟩
  simp only [lastPass, withProgram, hprogram]

theorem untimed_of_delivered {target : Option Path} {name : Text} {duration : Binary64}
    (h : last.context = (between.context.delivered
      (rendered between.context.options f.final) target).timed name duration) :
    last.context.untimed = (f.result c target).untimed := by
  rw [h, Context.untimed_timed, Context.untimed_delivered, hcontext, (f.at_last hcontext).1,
    ← Context.untimed_delivered]
  rfl

/-- The last pass of a completed run, and what it wrote. -/
theorem last_of_step (hstep : Run.Step lastPass between last) (hbetween : between.failure = none)
    (hgoes : last.failure = none) :
    ∃ target, last.context.untimed = (f.result c target).untimed ∧
      match target with
      | none => c.options.dryRun = true
      | some path =>
        c.options.dryRun = false ∧ (∀ given, c.outputPath = some given → path = given) ∧
          (between.shell.files.writeText path (rendered c.options f.final)).1 = .ok () ∧
          Files.Keeps between.shell.setup.file []
            (between.shell.files.writeText path (rendered c.options f.final)).2
            last.shell.files := by
  obtain ⟨hoptions, hpath, hrun⟩ := f.at_last hcontext
  have hnone := hstep.failure_of_goesOn hbetween hgoes
  rw [hrun] at hnone
  rcases renderPass_cases f.final between.context between.shell.files with
    ⟨_, _, -, -, -, hfails⟩ | ⟨hdry, hleaves⟩ | ⟨hdry, path, hdestination, hwrite, hleaves⟩
  · exact absurd (hfails.symm.trans hnone) (by simp)
  · rw [← hrun] at hleaves
    obtain ⟨-, ⟨duration, htimed⟩, -, -⟩ := hstep.of_leaves lastPass_mem hbetween hleaves
    exact ⟨none, f.untimed_of_delivered hcontext htimed, hoptions ▸ hdry⟩
  · rw [← hrun] at hleaves
    obtain ⟨-, ⟨duration, htimed⟩, -, hkeeps⟩ := hstep.of_leaves lastPass_mem hbetween hleaves
    rw [hoptions] at hwrite hkeeps
    refine ⟨some path, f.untimed_of_delivered hcontext htimed, hoptions ▸ hdry, ?_, hwrite, hkeeps⟩
    intro given hgiven
    have hgiven' : (between.context.printed
        (rendered between.context.options f.final)).outputPath = some given :=
      hpath.trans hgiven
    rw [destination, hgiven'] at hdestination
    exact (Except.ok.inj hdestination).symm

/-- The last pass writes again what it wrote before. -/
theorem last_again {target : Option Path} (hends : Run.Ends [lastPass] between last)
    (hbetween : between.failure = none)
    (htarget : match target with
      | none => c.options.dryRun = true
      | some path => c.options.dryRun = false ∧ c.outputPath = some path ∧
        (between.shell.files.writeText path (rendered c.options f.final)).1 = .ok ()) :
    last.failure = none ∧ last.context.untimed = (f.result c target).untimed := by
  obtain ⟨hoptions, hpath, hrun⟩ := f.at_last hcontext
  obtain ⟨hunwritten, hwritten⟩ := renderPass_leaves f.final between.context between.shell.files
  have hleaves : ∃ files, (lastPass.run between.context between.shell.files).Leaves
      (between.context.delivered (rendered between.context.options f.final) target) files
      none := by
    rw [hrun]
    cases target with
    | none => exact ⟨_, hunwritten (hoptions ▸ htarget)⟩
    | some path =>
      obtain ⟨hdry, hgiven, hwrite⟩ := htarget
      have hgiven' : (between.context.printed
          (rendered between.context.options f.final)).outputPath = some path :=
        hpath.trans hgiven
      have hdestination : destination (between.context.printed
          (rendered between.context.options f.final)) = .ok path := by
        rw [destination, hgiven']
      rw [← hoptions] at hdry hwrite
      exact ⟨_, ((hwritten hdry).2 path hdestination).2 hwrite⟩
  obtain ⟨files, hleaves⟩ := hleaves
  obtain ⟨next, hstep, hgoes, hends⟩ :=
    hends.behind fun next hstep => (hstep.of_leaves lastPass_mem hbetween hleaves).1
  obtain ⟨-, ⟨duration, htimed⟩, -, -⟩ := hstep.of_leaves lastPass_mem hbetween hleaves
  rw [Run.Ends.nil_iff] at hends
  subst hends
  exact ⟨hgoes, f.untimed_of_delivered hcontext htimed⟩

end

end Findings

/-! ### Files -/

theorem Run.Steps.keeps {passes : List Pass} {before after : Run}
    (h : Run.Steps passes before after)
    (hquiet : ∀ pass ∈ passes, ∀ c files, (pass.run c files).files = files) :
    Files.Keeps before.shell.setup.file [] before.shell.files after.shell.files := by
  induction h with
  | nil => exact .refl _ _ _
  | cons step goesOn others ih =>
    obtain ⟨hpass, hpasses⟩ := List.forall_mem_cons.mp hquiet
    obtain ⟨hsetup, hkeeps⟩ := step.keeps
    rw [hpass] at hkeeps
    have hothers := ih hpasses
    rw [hsetup] at hothers
    exact hkeeps.trans hothers

theorem Careful.timings_eq {α : Type} {run : Context → Files → PassResult} {looksAt : Context → α}
    {Change : (Context → Context) → Prop} (h : Careful run looksAt Change)
    (hchange : ∀ change, Change change → ∀ c, (change c).report.timings = c.report.timings)
    (c : Context) (files : Files) : (run c files).context.report.timings = c.report.timings := by
  rcases h c files with ⟨_, hcontext, -⟩ | ⟨change, hmade, hsucceeds⟩
  · rw [hcontext]
  · rw [(hsucceeds c files rfl).1]
    exact hchange change hmade c

/-- Durations are not taken by the passes themselves. -/
theorem timings_of_standard {pass : Pass} (hpass : pass ∈ standardPasses) (c : Context)
    (files : Files) : (pass.run c files).context.report.timings = c.report.timings := by
  simp only [standardPasses, List.mem_cons, List.not_mem_nil, or_false] at hpass
  rcases hpass with rfl | rfl | rfl | rfl | rfl | rfl
  · rcases parsePass_cases c files with ⟨_, hcontext, -⟩ | ⟨_, _, -, hcontext, -⟩ |
      ⟨_, _, hsource, hsucceeds⟩
    · rw [hcontext]
    · rw [hcontext]
    · rw [(hsucceeds c files hsource).1]
      rfl
  · exact careful_extract.timings_eq (by rintro _ ⟨tables, rfl⟩ c; rfl) c files
  · exact careful_decode.timings_eq (by rintro _ ⟨wanted, tables, rfl⟩ c; rfl) c files
  · exact careful_resolve.timings_eq (by rintro _ ⟨p, tally, rfl⟩ c; rfl) c files
  · exact careful_inline.timings_eq (by rintro _ ⟨p, collected, tally, rfl⟩ c; rfl) c files
  · cases hprogram : c.program with
    | none => simp only [withProgram, hprogram]
    | some p =>
      have hconcluded : ∀ (c : Context) target,
          (c.concluded target).report.timings = c.report.timings := by
        intro c target
        obtain ⟨_, outputPath, _, _, _, _, _, _, _, _, _⟩ := c
        cases outputPath <;> rfl
      simp only [withProgram, hprogram]
      rcases renderPass_cases p c files with ⟨_, _, -, hcontext, -⟩ | ⟨-, hcontext, -⟩ |
        ⟨-, _, -, -, hcontext, -⟩
      · rw [hcontext]
        rfl
      all_goals
        rw [hcontext]
        exact hconcluded _ _

/-- A run reports no pass twice, and durations that JSON can hold, if that was so before. -/
theorem timed_of_completed {passes : List Pass} {start last : Run}
    (h : Run.Steps passes start last) (hpasses : ∀ pass ∈ passes, pass ∈ standardPasses)
    (hstart : start.failure = none) (htimed : start.context.report.Timed) :
    last.context.report.Timed := by
  induction h with
  | nil => exact htimed
  | @cons pass passes before next after step goesOn others ih =>
    rw [List.forall_mem_cons] at hpasses
    refine ih hpasses.2 goesOn ?_
    rcases step.cases hstart with ⟨_, -, -, -, hstops⟩ | ⟨-, duration, hcontext, -⟩
    · exact absurd (goesOn.symm.trans hstops) (by simp)
    · rw [hcontext]
      have hbefore := timings_of_standard hpasses.1 before.context before.shell.files
      refine ⟨Entries.nodup_keys_set _ (hbefore ▸ htimed.nodup), fun timing htiming => ?_⟩
      rcases Entries.mem_set htiming with rfl | htiming
      · exact .float (Binary64.isCanonical_iff.mp duration.property)
      · exact htimed.isJson timing (hbefore ▸ htiming)

end Pipeline

end Unproxy
