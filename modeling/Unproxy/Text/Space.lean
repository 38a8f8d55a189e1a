import Unproxy.Text.Basic

/-!
# Unproxy.Text.Space

White space of every script, and texts without it at their ends.
-/

namespace Unproxy

/-- The information separators, the ASCII blanks, the next-line control and the
code points with a space, line or paragraph separator property. -/
def CodePoint.isSpace (c : CodePoint) : Bool :=
  (0x09 ≤ c.val && c.val ≤ 0x0D) || (0x1C ≤ c.val && c.val ≤ 0x20) ||
    c.val == 0x85 || c.val == 0xA0 || c.val == 0x1680 ||
    (0x2000 ≤ c.val && c.val ≤ 0x200A) || c.val == 0x2028 || c.val == 0x2029 ||
    c.val == 0x202F || c.val == 0x205F || c.val == 0x3000

namespace Text

/-- The text without what satisfies `p` at its end. -/
def dropEndWhile (p : CodePoint → Bool) (t : Text) : Text := (t.reverse.dropWhile p).reverse

/-- The text without white space at either end. -/
def strip (t : Text) : Text := dropEndWhile CodePoint.isSpace (t.dropWhile CodePoint.isSpace)

end Text

end Unproxy
