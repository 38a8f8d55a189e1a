import Unproxy.Text.Printable

/-!
# Unproxy.Text.Quoted

How a message shows a text: between quotes, with everything that is not
printable escaped. Single quotes are used, unless the text holds a single quote
and no double one.
-/

namespace Unproxy.Text.Quoted

/-- The quote put around a text. -/
def quoteFor (t : Text) : CodePoint :=
  if t.contains (CodePoint.ofChar '\'') && !t.contains (CodePoint.ofChar '"') then '"' else '\''

/-- One code point between quotes: the backslash and the quote in use take a
backslash, the common controls have letters, and all else that is not printable
is written in hexadecimal with two, four or eight digits. -/
def escape (quote c : CodePoint) : Text :=
  if c = quote || c = CodePoint.ofChar '\\' then ['\\', c]
  else if c = CodePoint.ofChar '\n' then ['\\', 'n']
  else if c = CodePoint.ofChar '\r' then ['\\', 'r']
  else if c = CodePoint.ofChar '\t' then ['\\', 't']
  else if c.isPrintable then [c]
  else if c.val < 0x100 then '\\' :: 'x' :: hex 2 c.val
  else if c.val < 0x10000 then '\\' :: 'u' :: hex 4 c.val
  else '\\' :: 'U' :: hex 8 c.val

end Quoted

/-- The text between quotes, as messages show it. -/
def quoted (t : Text) : Text :=
  let quote := Quoted.quoteFor t
  quote :: t.flatMap (Quoted.escape quote) ++ [quote]

end Unproxy.Text
