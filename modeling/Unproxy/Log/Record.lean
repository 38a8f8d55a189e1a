import Unproxy.Text.Basic

/-!
# Unproxy.Log.Record

What the parts of the program report while they work. A computation that may
report and may fail is a `Logged`: its records stay when it fails.
-/

namespace Unproxy.Log

/-- How serious a record is. -/
inductive Level where
  | debug
  | info
  | warning
  | error
  | critical
  deriving DecidableEq, Repr

namespace Level

/-- The name written into logs. -/
def name : Level → Text
  | .debug => "DEBUG".toText
  | .info => "INFO".toText
  | .warning => "WARNING".toText
  | .error => "ERROR".toText
  | .critical => "CRITICAL".toText

/-- Levels in increasing order. -/
def rank : Level → Nat
  | .debug => 0
  | .info => 1
  | .warning => 2
  | .error => 3
  | .critical => 4

/-- Whether a record of this level passes a threshold. -/
def reaches (level threshold : Level) : Bool := threshold.rank ≤ level.rank

end Level

/-- One message, with the name of the part that sent it. -/
structure Record where
  level : Level
  source : Text
  message : Text
  deriving DecidableEq, Repr

/-- The outcome of a computation and what it reported on the way. -/
structure Logged (ε α : Type) where
  outcome : Except ε α
  records : List Record

namespace Logged

variable {ε δ α β : Type}

instance : Monad (Logged ε) where
  pure a := ⟨.ok a, []⟩
  bind x f :=
    match x.outcome with
    | .error e => ⟨.error e, x.records⟩
    | .ok a =>
      let y := f a
      ⟨y.outcome, x.records ++ y.records⟩

/-- Reports one message. -/
def tell (level : Level) (source message : Text) : Logged ε Unit := ⟨.ok (), [⟨level, source, message⟩]⟩

/-- An outcome without records. -/
def ofExcept (x : Except ε α) : Logged ε α := ⟨x, []⟩

/-- A failure without records. -/
def fail (e : ε) : Logged ε α := ⟨.error e, []⟩

/-- The same computation with its failure turned into another. -/
def mapError (f : ε → δ) (x : Logged ε α) : Logged δ α := ⟨x.outcome.mapError f, x.records⟩

end Logged

end Unproxy.Log
