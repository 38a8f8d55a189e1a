import Unproxy.Log.Record

/-!
# Unproxy.Log.Colour

Colours on a terminal.
-/

namespace Unproxy.Log

/-- The number of a colour; names that are none of the six have the number of plain
text. -/
def colourCode (name : Text) : Text :=
  if name = "red".toText then "31".toText
  else if name = "green".toText then "32".toText
  else if name = "yellow".toText then "33".toText
  else if name = "blue".toText then "34".toText
  else if name = "magenta".toText then "35".toText
  else if name = "cyan".toText then "36".toText
  else "0".toText

/-- The text in a colour, bold or not. -/
def coloured (name : Text) (bold : Bool) (t : Text) : Text :=
  "\x1b[".toText ++ (if bold then "1;".toText else []) ++ colourCode name ++ "m".toText ++ t ++
    "\x1b[0m".toText

/-- The colour of a level. -/
def Level.colour : Level → Text
  | .debug => "blue".toText
  | .info => "green".toText
  | .warning => "yellow".toText
  | .error => "red".toText
  | .critical => "magenta".toText

end Unproxy.Log
