/-!
# Unproxy.Counting

Scans that keep a tally and may fail. The tally of what came before stays when a
scan fails.
-/

namespace Unproxy

/-- A computation with a tally that may fail. -/
abbrev Counting (ε σ : Type) := ExceptT ε (StateM σ)

namespace Counting

variable {ε δ σ α : Type}

/-- A computation without a tally, its failure turned into another. -/
def ofExcept (f : δ → ε) (x : Except δ α) : Counting ε σ α :=
  ExceptT.mk fun tally => (x.mapError f, tally)

/-- Changes the tally. -/
def count (f : σ → σ) : Counting ε σ Unit := ExceptT.mk fun tally => (.ok (), f tally)

/-- The outcome of a scan and its tally, from a tally on. -/
def tallied (x : Counting ε σ α) (tally : σ) : Except ε α × σ := x.run.run tally

end Counting

end Unproxy
