import Mathlib
import Unproxy.Proofs.Files.Writing
import Unproxy.Proofs.Pipeline.Registry

/-!
# Unproxy.Proofs.Pipeline.Passes

What the passes of the standard run do, and what they leave behind when they fail.

Main definitions:

* `Careful`: a pass that changes nothing when it fails, and depends on part of the context only;
* `Leftover`: what a pass that fails leaves of a context.

Main statements:

* `parsePass_cases`, `careful_extract`, `careful_decode`, `careful_resolve`, `careful_inline`,
  `renderPass_cases`: all that each of the passes can do;
* `summaryFailure_of_standard`: no standard pass stops a run with its note;
* `context_of_failed_run`: a run that a pass stops leaves the context as the passes before it did.
-/

namespace Unproxy.Pipeline

open Log Syntax

/-! ### What each pass can do -/

/-- What a pass leaves behind, up to its records. -/
def PassResult.Leaves (r : PassResult) (c : Context) (files : Files) (failure : Option PassError) :
    Prop :=
  r.context = c ∧ r.files = files ∧ r.failure = failure

/-- A pass that touches no file. If it fails it leaves the context alone, too. If it succeeds it
makes one of the changes in `Change`, and makes the same one whenever it finds the same in what
it looks at. -/
def Careful {α : Type} (run : Context → Files → PassResult) (looksAt : Context → α)
    (Change : (Context → Context) → Prop) : Prop :=
  ∀ c files,
    (∃ cause, (run c files).Leaves c files (some cause)) ∨
      ∃ change, Change change ∧
        ∀ c' files', looksAt c' = looksAt c → (run c' files').Leaves (change c') files' none

theorem parsePass_cases (c : Context) (files : Files) :
    (∃ cause, (parsePass c files).Leaves c files (some cause)) ∨
      (∃ source cause, sourceOf c files = .ok source ∧
        (parsePass c files).Leaves { c with source := source } files (some cause)) ∨
      ∃ source p, sourceOf c files = .ok source ∧
        ∀ c' files', sourceOf c' files' = .ok source →
          (parsePass c' files').Leaves (c'.parsed source p) files' none := by
  cases hsource : sourceOf c files with
  | error error =>
    refine .inl ⟨.input error, ?_⟩
    simp only [parsePass, hsource]
    exact ⟨rfl, rfl, rfl⟩
  | ok source =>
    cases hload : (Program.load source).outcome with
    | error error =>
      refine .inr (.inl ⟨source, .parse error, rfl, ?_⟩)
      simp only [parsePass, hsource, hload]
      exact ⟨rfl, rfl, rfl⟩
    | ok p =>
      refine .inr (.inr ⟨source, p, rfl, ?_⟩)
      intro c' files' hsource'
      simp only [parsePass, hsource', hload]
      exact ⟨rfl, rfl, rfl⟩

/-- A pass that needs a program fails without one. -/
theorem careful_withProgram {α : Type} {run : Program → Context → Files → PassResult}
    {looksAt : Context → α} {Change : (Context → Context) → Prop}
    (h : ∀ p, Careful (run p) looksAt Change) :
    Careful (withProgram run) (fun c => (c.program, looksAt c)) Change := by
  intro c files
  cases hprogram : c.program with
  | none =>
    refine .inl ⟨.noProgram, ?_⟩
    simp only [withProgram, hprogram]
    exact ⟨rfl, rfl, rfl⟩
  | some p =>
    rcases h p c files with ⟨cause, hfails⟩ | ⟨change, hchange, hsucceeds⟩
    · refine .inl ⟨cause, ?_⟩
      simpa only [withProgram, hprogram] using hfails
    · refine .inr ⟨change, hchange, fun c' files' hlooks => ?_⟩
      obtain ⟨hprogram', hlooks⟩ := Prod.mk.inj hlooks
      simpa only [withProgram, hprogram', hprogram] using hsucceeds c' files' hlooks

theorem careful_extract :
    Careful (withProgram extractPass) (fun c => (c.program, c.scheme))
      fun change => ∃ tables, change = fun c => c.extracted tables := by
  refine careful_withProgram fun p c files => ?_
  cases htables : (Table.extract p.root c.scheme).outcome with
  | error error =>
    refine .inl ⟨.number error, ?_⟩
    simp only [extractPass, htables]
    exact ⟨rfl, rfl, rfl⟩
  | ok tables =>
    refine .inr ⟨_, ⟨tables, rfl⟩, fun c' files' hscheme => ?_⟩
    simp only [extractPass, hscheme, htables]
    exact ⟨rfl, rfl, rfl⟩

theorem careful_decode :
    Careful (withProgram decodePass) (fun c => (c.program, c.scheme, c.raw))
      fun change => ∃ wanted tables, change = fun c => c.withDecoded wanted tables := by
  refine careful_withProgram fun p c files => ?_
  cases hwanted : Table.referenced p.root c.scheme with
  | error error =>
    refine .inl ⟨.access error, ?_⟩
    simp only [decodePass, hwanted]
    exact ⟨rfl, rfl, rfl⟩
  | ok wanted =>
    cases htables : (Table.decodeAll c.raw c.scheme (some wanted)).outcome with
    | error error =>
      refine .inl ⟨.table error, ?_⟩
      simp only [decodePass, hwanted, htables]
      exact ⟨rfl, rfl, rfl⟩
    | ok tables =>
      refine .inr ⟨_, ⟨wanted, tables, rfl⟩, fun c' files' hlooks => ?_⟩
      obtain ⟨hscheme, hraw⟩ := Prod.mk.inj hlooks
      simp only [decodePass, hscheme, hraw, hwanted, htables]
      exact ⟨rfl, rfl, rfl⟩

theorem careful_resolve :
    Careful (withProgram resolvePass) (fun c => (c.program, c.scheme, c.decoded))
      fun change => ∃ p tally, change = fun c => c.resolved p tally := by
  refine careful_withProgram fun p c files => ?_
  cases hresolved : (Resolution.resolve c.scheme c.decoded p).outcome with
  | error error =>
    refine .inl ⟨.resolution error, ?_⟩
    simp only [resolvePass, hresolved]
    exact ⟨rfl, rfl, rfl⟩
  | ok found =>
    refine .inr ⟨_, ⟨found.1, found.2, rfl⟩, fun c' files' hlooks => ?_⟩
    obtain ⟨hscheme, hdecoded⟩ := Prod.mk.inj hlooks
    simp only [resolvePass, hscheme, hdecoded, hresolved]
    exact ⟨rfl, rfl, rfl⟩

theorem careful_inline :
    Careful (withProgram inlinePass) (fun c => (c.program, c.scheme))
      fun change => ∃ p collected tally, change = fun c => c.inlined p collected tally := by
  refine careful_withProgram fun p c files => ?_
  cases haliases : (Alias.collect p.root c.scheme).outcome with
  | error error =>
    refine .inl ⟨.access error, ?_⟩
    simp only [inlinePass, haliases]
    exact ⟨rfl, rfl, rfl⟩
  | ok aliases =>
    cases hinlined : (Alias.inline c.scheme aliases p).outcome with
    | error error =>
      refine .inl ⟨.inlining error, ?_⟩
      simp only [inlinePass, haliases, hinlined]
      exact ⟨rfl, rfl, rfl⟩
    | ok found =>
      refine .inr ⟨_, ⟨found.1, aliases.length, found.2, rfl⟩, fun c' files' hscheme => ?_⟩
      simp only [inlinePass, hscheme, haliases, hinlined]
      exact ⟨rfl, rfl, rfl⟩

/-- What the last pass does, by what comes of writing. -/
theorem renderPass_leaves (p : Program) (c : Context) (files : Files) :
    let printed := c.printed (rendered c.options p)
    (c.options.dryRun = true → (renderPass p c files).Leaves printed.unwritten files none) ∧
      (c.options.dryRun = false →
        (∀ error, destination printed = .error error →
          (renderPass p c files).Leaves printed files (some error)) ∧
        ∀ path, destination printed = .ok path →
          (∀ error, (files.writeText path printed.output).1 = .error error →
            (renderPass p c files).Leaves printed (files.writeText path printed.output).2
              (some (.output error))) ∧
          ((files.writeText path printed.output).1 = .ok () →
            (renderPass p c files).Leaves (printed.written path)
              (files.writeText path printed.output).2 none)) := by
  dsimp only [renderPass]
  generalize hprinted : c.printed (rendered c.options p) = printed
  have hdryRun : printed.options.dryRun = c.options.dryRun := by
    rw [← hprinted]
    rfl
  have houtput : printed.output = rendered c.options p := by
    rw [← hprinted]
    rfl
  refine ⟨fun hdry => ?_, fun hdry => ⟨fun error hpath => ?_, fun path hpath =>
    ⟨fun error hwrite => ?_, fun hwrite => ?_⟩⟩⟩
  · simp only [hdryRun, if_pos hdry]
    exact ⟨rfl, rfl, rfl⟩
  all_goals
    simp only [hdryRun, hdry, hpath]
  · exact ⟨rfl, rfl, rfl⟩
  all_goals
    rw [← houtput]
    generalize files.writeText path printed.output = written at hwrite ⊢
    obtain ⟨outcome, files'⟩ := written
    cases hwrite
    exact ⟨rfl, rfl, rfl⟩

theorem renderPass_cases (p : Program) (c : Context) (files : Files) :
    let printed := c.printed (rendered c.options p)
    (∃ cause files', Files.Spares none files files' ∧
        (renderPass p c files).Leaves printed files' (some cause)) ∨
      (c.options.dryRun = true ∧ (renderPass p c files).Leaves printed.unwritten files none) ∨
      (c.options.dryRun = false ∧ ∃ path,
        destination printed = .ok path ∧ (files.writeText path printed.output).1 = .ok () ∧
        (renderPass p c files).Leaves (printed.written path)
          (files.writeText path printed.output).2 none) := by
  intro printed
  obtain ⟨hunwritten, hwritten⟩ := renderPass_leaves p c files
  cases hdry : c.options.dryRun with
  | true => exact .inr (.inl ⟨rfl, hunwritten hdry⟩)
  | false =>
    obtain ⟨hnowhere, hsomewhere⟩ := hwritten hdry
    cases hpath : destination printed with
    | error error =>
      exact .inl ⟨error, files, (Files.Keeps.refl _ _ _).spares, hnowhere error hpath⟩
    | ok path =>
      obtain ⟨hfails, hsucceeds⟩ := hsomewhere path hpath
      rcases files.writeText_cases path printed.output with ⟨error, herror, hspares⟩ | ⟨hok, -⟩
      · exact .inl ⟨.output error, _, hspares, hfails error herror⟩
      · exact .inr (.inr ⟨rfl, path, rfl, hok, hsucceeds hok⟩)

/-! ### Notes -/

theorem noteOf_note (c : Context) (name : Text) {note : Value} (h : note.isTruthy = true) :
    (c.note name note).noteOf name = note := by
  rw [Context.noteOf, Context.note, Entries.get?_set_self, if_pos h]
  rfl

theorem joinTexts_map_text (index : Nat) (ts : List Text) :
    joinTexts index (ts.map Value.text) = .ok ts := by
  induction ts generalizing index with
  | nil => rfl
  | cons t ts ih =>
    rw [List.map_cons, joinTexts, ih]
    rfl

/-- A note can be shown if what it says is missing is a row of texts. -/
theorem summaryFailure_of_missing {note : Value}
    (h : note.member? "missing".toText = none ∨
      ∃ ts, note.member? "missing".toText = some (Report.textsValue ts)) :
    Run.summaryFailure note = none := by
  have hpart : ∃ parts, missingPart note = .ok parts := by
    rcases h with hnone | ⟨ts, hsome⟩
    · exact ⟨[], by simp only [missingPart, hnone]⟩
    · by_cases htruthy : (Report.textsValue ts).isTruthy = true
      · refine ⟨["missing=".toText ++ Text.join ",".toText ts], ?_⟩
        simp only [missingPart, hsome]
        rw [if_pos htruthy]
        simp only [Report.textsValue, itemsOf, joinTexts_map_text]
        rfl
      · exact ⟨[], by simp only [missingPart, hsome, htruthy]; rfl⟩
  obtain ⟨parts, hparts⟩ := hpart
  simp only [Run.summaryFailure, summary, hparts, Except.map]

/-- No standard pass notes what a summary cannot show. -/
theorem summaryFailure_of_standard {pass : Pass} (hpass : pass ∈ standardPasses) {c : Context}
    {files : Files} (h : (pass.run c files).failure = none) :
    Run.summaryFailure ((pass.run c files).context.noteOf pass.name) = none := by
  -- What each of the passes notes is read off the context that it leaves.
  simp only [standardPasses, List.mem_cons, List.not_mem_nil, or_false] at hpass
  rcases hpass with rfl | rfl | rfl | rfl | rfl | rfl
  · rcases parsePass_cases c files with ⟨cause, -, -, hfails⟩ | ⟨source, cause, -, -, -, hfails⟩ |
      ⟨source, p, hsource, hsucceeds⟩
    · exact absurd (hfails.symm.trans h) (by simp)
    · exact absurd (hfails.symm.trans h) (by simp)
    · rw [(hsucceeds c files hsource).1, Context.parsed, noteOf_note _ _ rfl]
      exact summaryFailure_of_missing (.inl rfl)
  · rcases careful_extract c files with ⟨cause, -, -, hfails⟩ | ⟨change, ⟨tables, rfl⟩, hsucceeds⟩
    · exact absurd (hfails.symm.trans h) (by simp)
    · rw [(hsucceeds c files rfl).1]
      dsimp only [Context.extracted]
      rw [noteOf_note _ _ rfl]
      exact summaryFailure_of_missing (.inr ⟨_, rfl⟩)
  · rcases careful_decode c files with ⟨cause, -, -, hfails⟩ |
      ⟨change, ⟨wanted, tables, rfl⟩, hsucceeds⟩
    · exact absurd (hfails.symm.trans h) (by simp)
    · rw [(hsucceeds c files rfl).1]
      dsimp only [Context.withDecoded]
      rw [noteOf_note _ _ rfl]
      exact summaryFailure_of_missing (.inl rfl)
  · rcases careful_resolve c files with ⟨cause, -, -, hfails⟩ |
      ⟨change, ⟨p, tally, rfl⟩, hsucceeds⟩
    · exact absurd (hfails.symm.trans h) (by simp)
    · rw [(hsucceeds c files rfl).1]
      dsimp only [Context.resolved]
      rw [noteOf_note _ _ rfl]
      exact summaryFailure_of_missing (.inl rfl)
  · rcases careful_inline c files with ⟨cause, -, -, hfails⟩ |
      ⟨change, ⟨p, collected, tally, rfl⟩, hsucceeds⟩
    · exact absurd (hfails.symm.trans h) (by simp)
    · rw [(hsucceeds c files rfl).1]
      dsimp only [Context.inlined]
      rw [noteOf_note _ _ rfl]
      exact summaryFailure_of_missing (.inl rfl)
  · cases hprogram : c.program with
    | none =>
      simp only [withProgram, hprogram] at h
      cases h
    | some p =>
      simp only [withProgram, hprogram] at h ⊢
      rcases renderPass_cases p c files with ⟨cause, files', -, -, -, hfails⟩ |
        ⟨-, hcontext, -, -⟩ | ⟨-, path, -, -, hcontext, -, -⟩
      · exact absurd (hfails.symm.trans h) (by simp)
      · rw [hcontext, Context.unwritten, Context.concluded, noteOf_note _ _ rfl]
        exact summaryFailure_of_missing (.inl rfl)
      · rw [hcontext, Context.written, Context.concluded, noteOf_note _ _ rfl]
        exact summaryFailure_of_missing (.inl rfl)

/-! ### Passes that fail -/

/-- What a standard pass that fails leaves of the context: all as it was, but that reading may
have taken the source from the file, and writing may have printed the program. -/
def Leftover (name : Text) (before : Context) (files : Files) (after : Context) : Prop :=
  after = before ∨
    (name = "parse".toText ∧ before.source = [] ∧
      ∃ source, files.readText before.inputPath = .ok source ∧
        after = { before with source := source }) ∨
    (name = "render".toText ∧
      ∃ p, before.program = some p ∧ after = before.printed (rendered before.options p))

theorem Careful.context_of_fails {α : Type} {run : Context → Files → PassResult}
    {looksAt : Context → α} {Change : (Context → Context) → Prop} (h : Careful run looksAt Change)
    {c : Context} {files : Files} {cause : PassError} (hfails : (run c files).failure = some cause) :
    (run c files).context = c := by
  rcases h c files with ⟨_, hcontext, -, -⟩ | ⟨_, -, hsucceeds⟩
  · exact hcontext
  · exact absurd (hfails.symm.trans (hsucceeds c files rfl).2.2) (by simp)

theorem leftover_of_standard {pass : Pass} (hpass : pass ∈ standardPasses) {c : Context}
    {files : Files} {cause : PassError} (h : (pass.run c files).failure = some cause) :
    Leftover pass.name c files (pass.run c files).context := by
  simp only [standardPasses, List.mem_cons, List.not_mem_nil, or_false] at hpass
  rcases hpass with rfl | rfl | rfl | rfl | rfl | rfl
  · rcases parsePass_cases c files with ⟨_, hcontext, -, -⟩ | ⟨source, _, hsource, hcontext, -, -⟩ |
      ⟨source, p, hsource, hsucceeds⟩
    · exact .inl hcontext
    · rw [hcontext]
      by_cases hempty : c.source.isEmpty = true
      · -- The source was read from the file.
        rw [sourceOf, if_pos hempty] at hsource
        exact .inr (.inl ⟨rfl, List.isEmpty_iff.mp hempty, source, hsource, rfl⟩)
      · rw [sourceOf, if_neg hempty] at hsource
        cases hsource
        exact .inl rfl
    · exact absurd (h.symm.trans (hsucceeds c files hsource).2.2) (by simp)
  · exact .inl (careful_extract.context_of_fails h)
  · exact .inl (careful_decode.context_of_fails h)
  · exact .inl (careful_resolve.context_of_fails h)
  · exact .inl (careful_inline.context_of_fails h)
  · cases hprogram : c.program with
    | none =>
      simp only [withProgram, hprogram]
      exact .inl rfl
    | some p =>
      simp only [withProgram, hprogram] at h ⊢
      rcases renderPass_cases p c files with ⟨_, files', -, hcontext, -, -⟩ |
        ⟨-, -, -, hsucceeds⟩ | ⟨-, path, -, -, -, -, hsucceeds⟩
      · exact .inr (.inr ⟨rfl, p, hprogram, hcontext⟩)
      · exact absurd (h.symm.trans hsucceeds) (by simp)
      · exact absurd (h.symm.trans hsucceeds) (by simp)

theorem standard_eq : standard = standardPasses := rfl

theorem mem_standardPasses {skip only : List Text} {pass : Pass}
    (h : pass ∈ standard.select skip only) : pass ∈ standardPasses :=
  standard_eq ▸ ((Registry.mem_select (by decide)).mp h).1

/-- The pass that stopped a run, if a pass did. -/
def RunError.pass? : RunError → Option Text
  | .pass name _ _ => some name
  | .summary _ => none

theorem RunError.eq_of_pass? {error : RunError} {name : Text} (h : error.pass? = some name) :
    ∃ cause completed, error = .pass name cause completed := by
  cases error with
  | pass other cause completed =>
    cases h
    exact ⟨cause, completed, rfl⟩
  | summary error => cases h

/-- A run that names no passes goes through all of them. -/
theorem standard_select_all : standard.select [] [] = standardPasses := by
  have hsorted : standardPasses.mergeSort Registry.before = standardPasses :=
    Registry.mergeSort_eq (by decide) (.refl _) (by decide)
  rw [standard_eq, Registry.select_eq (by decide) (by decide), hsorted]
  rfl

variable {m : Type → Type} [Monad m] [LawfulMonad m]

/-- A run of standard passes that one of them stops. The passes before it were completed, and
the context is as they left it, with their times; only reading and writing can leave a trace of
their own. Nothing behind the pass was begun. -/
theorem context_of_failed_run (clock : Clock m) (skip only : List Text) (context : Context)
    (shell : Shell) :
    SatisfiesM
      (fun last => ∀ name cause completed, last.failure = some (.pass name cause completed) →
        ∃ done pass rest between,
          standard.select skip only = done ++ pass :: rest ∧ pass.name = name ∧
          Run.Steps done { context := context, shell := shell } between ∧
          completed = done.map Pass.name ∧ last.entered = completed ++ [name] ∧
          last.timings = between.timings ∧
          Leftover name between.context between.shell.files last.context)
      (standard.run clock skip only context shell) := by
  refine (Run.satisfiesM_through clock (standard.select skip only) _).imp fun {last} hends => ?_
  intro name cause completed hfailure
  generalize hpasses : standard.select skip only = passes at hends
  cases hends with
  | complete steps =>
    obtain ⟨hnone, -⟩ := steps.spec rfl
    exact absurd (hfailure.symm.trans hnone) (by simp)
  | @stopped done rest pass _ between _ steps step stops =>
    obtain ⟨hgoes, hentered, htimings, -⟩ := steps.spec rfl
    have hpass : pass ∈ standardPasses :=
      mem_standardPasses (hpasses ▸ List.mem_append_right done List.mem_cons_self)
    rcases step.cases hgoes with ⟨cause', hcause, hcontext, htimed, hstops⟩ |
      ⟨hsucceeds, duration, -, -, hstops⟩
    · obtain ⟨rfl, rfl, rfl⟩ : pass.name = name ∧ cause' = cause ∧
          between.timings.map Prod.fst = completed := by
        simpa using hstops.symm.trans hfailure
      refine ⟨done, pass, rest, between, rfl, rfl, steps, htimings, ?_, htimed, ?_⟩
      · rw [step.entered, hentered, htimings]
        rfl
      · rw [hcontext]
        exact leftover_of_standard hpass hcause
    · rw [summaryFailure_of_standard hpass hsucceeds] at hstops
      exact absurd hstops stops

/-- An input that has no name, and no output: all passes but the last are completed, and the last
has printed the program. -/
theorem context_of_failed_run_nameless :
    let context := Context.start (Path.ofText "/".toText) none ";".toText Scheme.standard
      { layOut := id }
    let shell : Shell := ⟨.empty, .initial, [], []⟩
    let last := Id.run (standard.run (Clock.still []) [] [] context shell)
    ∃ cause completed done pass rest between,
      last.failure = some (.pass "render".toText cause completed) ∧
      standard.select [] [] = done ++ pass :: rest ∧ pass.name = "render".toText ∧
      Run.Steps done { context := context, shell := shell } between ∧
      completed = done.map Pass.name ∧ last.entered = completed ++ ["render".toText] ∧
      last.timings = between.timings ∧
      Leftover "render".toText between.context between.shell.files last.context ∧
      last.context.output = ";\n".toText := by
  intro context shell last
  have hlast : last = Id.run (Run.through (Clock.still []) standardPasses
      { context := context, shell := shell }) := by
    rw [← standard_select_all]
    rfl
  have hchecked : last.failure.bind RunError.pass? = some "render".toText ∧
      last.context.output = ";\n".toText := by
    rw [hlast]
    decide +kernel
  obtain ⟨hfailure, houtput⟩ := hchecked
  have hruns := SatisfiesM_Id_eq.mp
    (context_of_failed_run (Clock.still []) [] [] context shell)
  obtain ⟨error, hfailed, hname⟩ := Option.bind_eq_some_iff.mp hfailure
  obtain ⟨cause, completed, rfl⟩ := RunError.eq_of_pass? hname
  obtain ⟨done, pass, rest, between, h⟩ := hruns _ cause completed hfailed
  obtain ⟨hselect, hname, hsteps, hcompleted, hentered, htimings, hleftover⟩ := h
  exact ⟨cause, completed, done, pass, rest, between, hfailed, hselect, hname, hsteps,
    hcompleted, hentered, htimings, hleftover, houtput⟩

end Unproxy.Pipeline
