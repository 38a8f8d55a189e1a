import Unproxy.Pipeline.Context

/-!
# Unproxy.Pipeline.Passes

The passes of the standard run: read the program, find its tables, decode those it
reads, resolve the reads, put aliases in place, write the result.
-/

namespace Unproxy.Pipeline

open Log Syntax

/-! ### Metadata -/

/-- A count as a value. -/
def countValue (n : Nat) : Value := .number (.int n)

/-- Members under text keys. -/
def noted (members : List (String × Value)) : Value :=
  .object (members.map fun (name, value) => (Key.text name.toText, value))

/-- Runs a pass that needs a program. -/
def withProgram (run : Program → Context → Files → PassResult) (c : Context) (files : Files) :
    PassResult :=
  match c.program with
  | some p => run p c files
  | none => ⟨c, files, [], some .noProgram⟩

/-! ### Reading -/

/-- The source: the text given, or the input file's. -/
def sourceOf (c : Context) (files : Files) : Except Files.ReadError Text :=
  if c.source.isEmpty then files.readText c.inputPath else .ok c.source

/-- What is noted about the program. -/
def parseNote (source : Text) (p : Program) : Value :=
  noted [("input_length", countValue source.length), ("statements", countValue p.topLevelCount)]

/-- The context after the program was read. -/
def Context.parsed (c : Context) (source : Text) (p : Program) : Context :=
  { c with source := source, program := some p }.note "parse".toText (parseNote source p)

/-- Reads the program. -/
def parsePass (c : Context) (files : Files) : PassResult :=
  match sourceOf c files with
  | .error error => ⟨c, files, [], some (.input error)⟩
  | .ok source =>
    let loaded := Program.load source
    match loaded.outcome with
    | .error error => ⟨{ c with source := source }, files, loaded.records, some (.parse error)⟩
    | .ok p => ⟨c.parsed source p, files, loaded.records, none⟩

/-! ### Tables -/

/-- The warning about tables that were not found. -/
def missingMessage (missing : List Text) : Text :=
  "literal tables not found: ".toText ++ Text.join ", ".toText missing

/-- The report after tables were found. -/
def Report.afterExtraction (r : Report) (found : List Text) (missing : List Text) : Report :=
  { r with
    tablesExtracted := found
    tablesMissing := missing
    warnings := if missing.isEmpty then r.warnings else r.warnings ++ [missingMessage missing] }

/-- The tables of the scheme that were not found. -/
def missingTables (scheme : Scheme) (tables : Table.Raw) : List Text :=
  scheme.tableIds.filter fun table => !tables.has table

/-- What is noted about the tables found. -/
def extractNote (tables : Table.Raw) (missing : List Text) : Value :=
  noted [("extracted", Report.textsValue (Text.sort tables.keys)),
    ("missing", Report.textsValue missing),
    ("codes", countValue (tables.foldl (fun count (_, codes) => count + codes.length) 0))]

/-- The context after tables were found. -/
def Context.extracted (c : Context) (tables : Table.Raw) : Context :=
  let missing := missingTables c.scheme tables
  let report := Report.afterExtraction c.report (Text.sort tables.keys) missing
  { c with raw := tables, report := report }.note "extract".toText (extractNote tables missing)

/-- Finds the raw tables. -/
def extractPass (p : Program) (c : Context) (files : Files) : PassResult :=
  let extracted := Table.extract p.root c.scheme
  match extracted.outcome with
  | .error error => ⟨c, files, extracted.records, some (.number error)⟩
  | .ok tables =>
    let missing := missingTables c.scheme tables
    let warning : List Record :=
      if missing.isEmpty then [] else [⟨.warning, Table.extractionSource, missingMessage missing⟩]
    ⟨c.extracted tables, files, extracted.records ++ warning, none⟩

/-- What is noted about the tables decoded. -/
def decodeNote (wanted : List Text) (tables : Table.Decoded) : Value :=
  noted [("referenced", Report.textsValue wanted),
    ("decoded", Report.textsValue (Text.sort tables.keys))]

/-- The context after tables were decoded. -/
def Context.withDecoded (c : Context) (wanted : List Text) (tables : Table.Decoded) : Context :=
  let report := { c.report with tablesDecoded := Text.sort tables.keys }
  { c with decoded := tables, report := report }.note "decode".toText (decodeNote wanted tables)

/-- Decodes the tables that the program reads. -/
def decodePass (p : Program) (c : Context) (files : Files) : PassResult :=
  match Table.referenced p.root c.scheme with
  | .error error => ⟨c, files, [], some (.access error)⟩
  | .ok wanted =>
    let decoded := Table.decodeAll c.raw c.scheme (some wanted)
    match decoded.outcome with
    | .error error => ⟨c, files, decoded.records, some (.table error)⟩
    | .ok tables => ⟨c.withDecoded wanted tables, files, decoded.records, none⟩

/-! ### Replacements -/

/-- What is noted about reads resolved. -/
def resolveNote (tally : Resolution.Tally) : Value :=
  noted [("resolved", countValue tally.resolved), ("misses", countValue tally.misses),
    ("skipped_writes", countValue tally.skippedWrites),
    ("unrepresentable", countValue tally.unrepresentable)]

/-- The context after reads were resolved. -/
def Context.resolved (c : Context) (p : Program) (tally : Resolution.Tally) : Context :=
  let report :=
    { c.report with
      propertiesResolved := tally.resolved
      resolutionMisses := tally.misses
      skippedWrites := c.report.skippedWrites + tally.skippedWrites }
  { c with program := some p, report := report }.note "resolve".toText (resolveNote tally)

/-- Resolves the reads of table entries. -/
def resolvePass (p : Program) (c : Context) (files : Files) : PassResult :=
  let resolved := Resolution.resolve c.scheme c.decoded p
  match resolved.outcome with
  | .error error => ⟨c, files, resolved.records, some (.resolution error)⟩
  | .ok (p, tally) => ⟨c.resolved p tally, files, resolved.records, none⟩

/-- What is noted about aliases. -/
def inlineNote (collected : Nat) (tally : Alias.Tally) : Value :=
  noted [("collected", countValue collected), ("inlined", countValue tally.inlined),
    ("skipped_writes", countValue tally.skippedWrites), ("cycles", countValue tally.cycles)]

/-- The context after aliases were put in place. -/
def Context.inlined (c : Context) (p : Program) (collected : Nat) (tally : Alias.Tally) : Context :=
  let report :=
    { c.report with
      aliasesCollected := collected
      aliasesInlined := tally.inlined
      skippedWrites := c.report.skippedWrites + tally.skippedWrites }
  { c with program := some p, report := report }.note "inline".toText (inlineNote collected tally)

/-- Puts aliases in place. -/
def inlinePass (p : Program) (c : Context) (files : Files) : PassResult :=
  let collected := Alias.collect p.root c.scheme
  match collected.outcome with
  | .error error => ⟨c, files, collected.records, some (.access error)⟩
  | .ok aliases =>
    let inlined := Alias.inline c.scheme aliases p
    let records := collected.records ++ inlined.records
    match inlined.outcome with
    | .error error => ⟨c, files, records, some (.inlining error)⟩
    | .ok (p, tally) => ⟨c.inlined p aliases.length tally, files, records, none⟩

/-! ### Writing -/

/-- The text with a line break at its end, unless it is empty. -/
def withLineBreak (t : Text) : Text :=
  match t.getLast? with
  | none => t
  | some c => if c = CodePoint.ofChar '\n' then t else t ++ "\n".toText

/-- The program as it is written. -/
def rendered (options : Options) (p : Program) : Text :=
  withLineBreak (if options.beautify then options.layOut p.source else p.source)

/-- Where the output goes: the path given, or a name made from the input's. -/
def destination (c : Context) : Except PassError Path :=
  match c.outputPath with
  | some path => .ok path
  | none =>
    if c.inputPath.name.isEmpty then .error (.namelessInput c.inputPath)
    else .ok (c.inputPath.withName (c.inputPath.stem ++ "_deob.js".toText))

/-- The context with the text to be written. -/
def Context.printed (c : Context) (output : Text) : Context :=
  { c with output := output, report := { c.report with outputLength := output.length } }

/-- What is noted about the output: nothing was to be written, or it was written to a path. -/
def renderNote (output : Text) (target : Option Path) : Value :=
  noted
    ([("length", countValue output.length), ("encoding", Value.text "utf-8".toText)] ++
      match target with
      | none => [("written", .bool false), ("skipped_write", .bool true)]
      | some path => [("written", .bool true), ("output_path", .text path.toText)])

/-- Ends the last pass: the report takes the output path that is set by now. -/
def Context.concluded (c : Context) (target : Option Path) : Context :=
  let report :=
    match c.outputPath with
    | some path => { c.report with outputPath := some path.toText }
    | none => c.report
  { c with report := report }.note "render".toText (renderNote c.output target)

/-- The context after nothing was to be written. -/
def Context.unwritten (c : Context) : Context := c.concluded none

/-- The context after the text was written. -/
def Context.written (c : Context) (path : Path) : Context :=
  { c with outputPath := some path }.concluded (some path)

/-- The name under which writing reports. -/
def renderSource : Text := "proxydeob.passes.render".toText

/-- Writes the result, unless nothing is to be written. -/
def renderPass (p : Program) (c : Context) (files : Files) : PassResult :=
  let output := rendered c.options p
  let c := c.printed output
  if c.options.dryRun then ⟨c.unwritten, files, [], none⟩
  else
    match destination c with
    | .error error => ⟨c, files, [], some error⟩
    | .ok path =>
      match files.writeText path output with
      | (.error error, files) => ⟨c, files, [], some (.output error)⟩
      | (.ok (), files) =>
        ⟨c.written path, files,
          [⟨.info, renderSource,
            "wrote ".toText ++ Text.ofNat output.length ++ " characters to ".toText ++ path.toText⟩],
          none⟩

/-- The passes of the standard run. -/
def standardPasses : List Pass :=
  [⟨"parse".toText, 10, parsePass⟩,
    ⟨"extract".toText, 20, withProgram extractPass⟩,
    ⟨"decode".toText, 30, withProgram decodePass⟩,
    ⟨"resolve".toText, 40, withProgram resolvePass⟩,
    ⟨"inline".toText, 50, withProgram inlinePass⟩,
    ⟨"render".toText, 60, withProgram renderPass⟩]

end Unproxy.Pipeline
