import Unproxy.Value.Basic

/-!
# Unproxy.Report

What a run did, for its readers: as text and as a value.
-/

namespace Unproxy

/-- What a run did. -/
structure Report where
  inputPath : Option Text := none
  outputPath : Option Text := none
  scheme : Option Text := none
  tablesExtracted : List Text := []
  tablesMissing : List Text := []
  tablesDecoded : List Text := []
  propertiesResolved : Int := 0
  resolutionMisses : Int := 0
  skippedWrites : Int := 0
  aliasesCollected : Int := 0
  aliasesInlined : Int := 0
  outputLength : Int := 0
  /-- How long each pass took, in seconds. -/
  timings : Entries Text Number := []
  warnings : List Text := []
  deriving DecidableEq, Repr

namespace Report

/-- A text that may be missing. -/
def optionalText (t : Option Text) : Text := t.getD "None".toText

/-- Names with commas between them. -/
def names (ts : List Text) : Text := Text.join ", ".toText ts

/-- Names with commas between them, or a word that says there are none. -/
def namesOrNone (ts : List Text) : Text := if (names ts).isEmpty then "none".toText else names ts

/-- The lines of the report. -/
def lines (r : Report) : List Text :=
  ["Input: ".toText ++ optionalText r.inputPath, "Schema: ".toText ++ optionalText r.scheme,
      "Tables extracted: ".toText ++ namesOrNone r.tablesExtracted] ++
    (if r.tablesMissing.isEmpty then [] else ["Tables missing: ".toText ++ names r.tablesMissing]) ++
    ["Tables decoded: ".toText ++ namesOrNone r.tablesDecoded,
      "Properties resolved: ".toText ++ Text.ofInt r.propertiesResolved ++ " (misses: ".toText ++
        Text.ofInt r.resolutionMisses ++ ")".toText,
      "Aliases inlined: ".toText ++ Text.ofInt r.aliasesInlined ++ " (collected: ".toText ++
        Text.ofInt r.aliasesCollected ++ ")".toText,
      "Write positions left untouched: ".toText ++ Text.ofInt r.skippedWrites,
      "Final output length: ".toText ++ Text.ofInt r.outputLength ++ " chars".toText] ++
    (match r.outputPath with
      | some path => if path.isEmpty then [] else ["Output: ".toText ++ path]
      | none => []) ++
    if r.warnings.isEmpty then []
    else "Warnings:".toText :: r.warnings.map fun warning => "  - ".toText ++ warning

/-- The report as text. -/
def toText (r : Report) : Text := Text.join "\n".toText r.lines

/-- A text that may be missing, as a value. -/
def optionalValue (t : Option Text) : Value := (t.map Value.text).getD .null

/-- A row of texts as a value. -/
def textsValue (ts : List Text) : Value := .array (ts.map Value.text)

/-- The report as a value. -/
def toValue (r : Report) : Value :=
  .object
    [(.text "input_path".toText, optionalValue r.inputPath),
      (.text "output_path".toText, optionalValue r.outputPath),
      (.text "schema".toText, optionalValue r.scheme),
      (.text "tables_extracted".toText, textsValue r.tablesExtracted),
      (.text "tables_missing".toText, textsValue r.tablesMissing),
      (.text "tables_decoded".toText, textsValue r.tablesDecoded),
      (.text "properties_resolved".toText, .number (.int r.propertiesResolved)),
      (.text "resolution_misses".toText, .number (.int r.resolutionMisses)),
      (.text "skipped_writes".toText, .number (.int r.skippedWrites)),
      (.text "aliases_collected".toText, .number (.int r.aliasesCollected)),
      (.text "aliases_inlined".toText, .number (.int r.aliasesInlined)),
      (.text "output_length".toText, .number (.int r.outputLength)),
      (.text "timings".toText, .object (r.timings.map fun (name, t) => (.text name, .number t))),
      (.text "warnings".toText, textsValue r.warnings)]

end Report

end Unproxy
