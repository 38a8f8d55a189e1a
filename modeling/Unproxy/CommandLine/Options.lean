import Unproxy.Files.Path
import Unproxy.Text.Space
import Unproxy.Value.Basic

/-!
# Unproxy.CommandLine.Options

Settings that come from the environment.
-/

namespace Unproxy.CommandLine

/-- Variables of the environment by name. -/
abbrev Environment := Entries Text Text

/-- The settings of a call. -/
structure Settings where
  schemePath : Option Path
  verbose : Bool
  logFile : Option Path
  reportPath : Option Path
  deriving DecidableEq, Repr

/-- A variable without white space around it; empty if it is not set. -/
def setting (env : Environment) (name : String) : Text := ((env.get? name.toText).getD []).strip

/-- The path a variable holds. -/
def pathVariable (env : Environment) (name : String) : Option Path :=
  let value := setting env name
  if value.isEmpty then none else some (Path.ofText value)

/-- Words that switch something on, whatever their case. -/
def isOn (value : Text) : Bool :=
  ["1", "true", "yes", "on"].any fun word => value.toLower = word.toText

/-- The settings an environment holds. -/
def settings (env : Environment) : Settings where
  schemePath := pathVariable env "PROXYDEOB_SCHEMA"
  verbose := isOn (setting env "PROXYDEOB_VERBOSE")
  logFile := pathVariable env "PROXYDEOB_LOG_FILE"
  reportPath := pathVariable env "PROXYDEOB_REPORT"

end Unproxy.CommandLine
